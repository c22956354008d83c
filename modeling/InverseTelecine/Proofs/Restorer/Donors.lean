import InverseTelecine.Proofs.Restorer.Readings
import InverseTelecine.Proofs.Restorer.Reliable
import Mathlib.Order.Bounds.Defs

namespace InverseTelecine

/-- Input `j` is the last one before input `i` for which no slot that was read was empty. -/
def LastUndropped (readings : List (List Nat)) (i j : Nat) : Prop :=
  IsGreatest {j | j < i ∧ ∃ reads, readings[j]? = some reads ∧ 0 ∉ reads} j

namespace LastUndropped

variable {readings : List (List Nat)} {reads : List Nat} {i j : Nat}

theorem here (read : readings[i]? = some reads) (filled : 0 ∉ reads) : LastUndropped readings (i + 1) i :=
  ⟨⟨Nat.lt_succ_self i, reads, read, filled⟩, fun _ other => Nat.le_of_lt_succ other.1⟩

theorem past (h : LastUndropped readings i j) (read : readings[i]? = some reads) (dropped : 0 ∈ reads) :
    LastUndropped readings (i + 1) j := by
  refine ⟨⟨Nat.lt_succ_of_lt h.1.1, h.1.2⟩, ?_⟩
  rintro k ⟨before, others, found, filled⟩
  rcases Nat.lt_or_eq_of_le (Nat.le_of_lt_succ before) with earlier | rfl
  · exact h.2 ⟨earlier, others, found, filled⟩
  · obtain rfl : reads = others := Option.some.inj (read.symm.trans found)
    exact absurd dropped filled

end LastUndropped

namespace RowRouter

variable {m next : RowRouter} {input : Visible} {reads : List Nat} {shown : List Visible}

theorem held_cover {fields : Nat} {held : Visible} (full : (m.cover input fields).held = some held) :
    held = input ∧ (m.cover input fields).skip = 0 := by
  unfold cover at full ⊢
  split at full
  next single =>
    rw [if_pos single]
    exact ⟨(Option.some.inj full).symm, rfl⟩
  next => cases full

theorem Turn.held (h : Turn m input reads shown next) (paired : m.held.isSome → m.skip = 0) {held : Visible}
    (full : next.held = some held) :
    next.skip = 0 ∧ (0 ∉ reads ∧ held = input ∨ 0 ∈ reads ∧ m.held = some held) := by
  cases h with
  | duplicate more =>
    have due := paired (by rw [full]; rfl)
    omega
  | donor one => exact ⟨rfl, .inl ⟨List.not_mem_nil, (Option.some.inj full).symm⟩⟩
  | empty due read =>
    obtain ⟨skip, kept, -⟩ := kept_of_taken read
    exact ⟨skip.trans due, .inr ⟨List.mem_singleton_self 0, kept.symm.trans full⟩⟩
  | fresh due read some free =>
    obtain ⟨same, skip⟩ := held_cover full
    exact ⟨skip, .inl ⟨by simp only [List.mem_singleton]; omega, same⟩⟩
  | woven due read two =>
    obtain ⟨same, skip⟩ := held_cover full
    exact ⟨skip, .inl ⟨by simp only [List.mem_singleton]; omega, same⟩⟩
  | last due read kept again some =>
    obtain ⟨same, skip⟩ := held_cover full
    exact ⟨skip, .inl ⟨by simp only [List.mem_pair]; omega, same⟩⟩
  | lost => cases full

theorem held_after (free : m.held = none) {inputs : List Visible} {i : Nat} (inside : i ≤ inputs.length)
    (held : Visible) (full : (m.after (inputs.take i)).held = some held) :
    (m.after (inputs.take i)).skip = 0 ∧ ∃ j, LastUndropped (m.readings inputs) i j ∧ inputs[j]? = some held := by
  induction i generalizing held with
  | zero => cases free.symm.trans full
  | succ i ih =>
    have before := ih (Nat.le_of_succ_le inside)
    have place : inputs[i]? = some inputs[i] := List.getElem?_eq_getElem inside
    have read := m.getElem?_readings inside
    have turn := (m.after (inputs.take i)).step_turn inputs[i]
    rw [List.take_succ_eq_append_getElem inside, after_concat] at full ⊢
    obtain ⟨due, ⟨filled, rfl⟩ | ⟨dropped, kept⟩⟩ := turn.held
      (fun some => (before _ (Option.some_get some).symm).1) full
    · exact ⟨due, i, .here read filled, place⟩
    · obtain ⟨_, j, last, found⟩ := before held kept
      exact ⟨due, j, last.past read dropped, found⟩

theorem Turn.weaves {fields : Nat} {held : Visible} (h : Turn m input [fields] shown next) (two : 2 ≤ fields)
    (full : m.held = some held) : shown = [Visible.weave m.first input held] := by
  cases h with
  | empty => omega
  | fresh _ _ _ free => cases free.symm.trans full
  | woven _ _ _ full' =>
    cases full'.symm.trans full
    rfl

theorem Turn.sources (h : Turn m input reads shown next) {p : Visible} (member : p ∈ shown) :
    p = input ∨ ∃ held, m.held = some held ∧ (p = held ∨ p = Visible.weave m.first input held) := by
  cases h with
  | duplicate => cases member
  | donor => cases member
  | empty => cases member
  | fresh => exact .inl (List.mem_singleton.mp member)
  | woven due read two full => exact .inr ⟨_, full, .inr (List.mem_singleton.mp member)⟩
  | last due read full =>
    rcases List.mem_pair.mp member with rfl | rfl
    · exact .inr ⟨_, full, .inl rfl⟩
    · exact .inl rfl
  | lost due read full => exact .inr ⟨_, full, .inl (List.mem_singleton.mp member)⟩

end RowRouter

namespace Restorer

variable {σ : Type} {ends : Endpoints σ} {options : Options} {stream : InputStream} {c : Cadence}
  {retiming : Retiming} {r : Restorer} {m : RowRouter}

theorem Serves.sources (h : Serves options stream c retiming r m) {input : Frame}
    (fits : input.picture.Fits stream.layout) (s : σ)
    (quiet : (Restorer.call ends r input s).Undisturbed stream.layout) :
    (∀ p ∈ (Restorer.call ends r input s).shown, p = input.picture.visible ∨ r.donor.full = true ∧
        (p = r.donor.picture.visible ∨
          p = Visible.weave options.first input.picture.visible r.donor.picture.visible)) ∧
      ∀ fields, 2 ≤ fields → r.slotReads = [fields] → r.donor.full = true →
        (Restorer.call ends r input s).shown =
          [Visible.weave options.first input.picture.visible r.donor.picture.visible] := by
  have turn := m.step_turn input.picture.visible
  rw [← ((h.follows.call fits s quiet.supplied).1.whole quiet).2, ← h.follows.reads] at turn
  rw [← h.options_eq, h.follows.first]
  constructor
  · intro p member
    rcases turn.sources member with copied | ⟨held, full, made⟩
    · exact .inl copied
    · obtain ⟨flag, rfl⟩ := h.follows.held_eq_some full
      exact .inr ⟨flag, made⟩
  · intro fields two read flag
    rw [read] at turn
    exact turn.weaves two (h.follows.held.trans (if_pos flag))

/-- The donor is of the last input that was not dropped, and it is all that a call shows besides its own input: the
rows of the second parity, when the call reads a slot of two fields or more. -/
theorem donor_of_last_undropped (started : r.Started options stream) {inputs : List Frame}
    (fits : ∀ f ∈ inputs, f.picture.Fits stream.layout) (s : σ)
    (quiet : ∀ d ∈ calls ends r inputs s, d.Undisturbed stream.layout) {i : Nat} {before : Restorer} {input : Frame}
    {d : Call σ} (here : (r.befores (calls ends r inputs s))[i]? = some before) (fed : inputs[i]? = some input)
    (place : (calls ends r inputs s)[i]? = some d) :
    (before.donor.full = true → ∃ j donor, LastUndropped (r.readings (calls ends r inputs s)) i j ∧
        inputs[j]? = some donor ∧ before.donor.picture.visible = donor.picture.visible) ∧
      (∀ p ∈ d.shown, p = input.picture.visible ∨ before.donor.full = true ∧
        (p = before.donor.picture.visible ∨
          p = Visible.weave options.first input.picture.visible before.donor.picture.visible)) ∧
      ∀ fields, 2 ≤ fields → before.slotReads = [fields] → before.donor.full = true →
        d.shown = [Visible.weave options.first input.picture.visible before.donor.picture.visible] := by
  obtain ⟨c, accepted⟩ := started.cadence
  obtain ⟨retiming, _, serves⟩ := started.serves accepted
  obtain ⟨t, rfl, serves'⟩ := serves.calls_at fits s here fed place
  refine ⟨?_, serves'.sources (fits _ (List.mem_of_getElem? fed)) t (quiet _ (List.mem_of_getElem? place))⟩
  intro flag
  have inside : i ≤ (inputs.map (·.picture.visible)).length := by
    rw [List.length_map]
    exact (List.getElem?_eq_some_iff.mp fed).1.le
  obtain ⟨_, j, last, found⟩ := RowRouter.held_after rfl inside _ (serves'.follows.held.trans (if_pos flag))
  rw [List.getElem?_map, Option.map_eq_some_iff] at found
  obtain ⟨donor, fed', same⟩ := found
  rw [← (serves.follows.readings fits s fun d member => (quiet d member).supplied).1] at last
  exact ⟨j, donor, last, fed', same.symm⟩

theorem donor_of_last_undropped_columns :
    ∃ r, (start (Pool.supply .boundless) ⟨.top, "30", 0⟩ .columns Pool.columns).result = .ok r ∧
      let inputs := Frame.columns [(0, 1), (2, 3), (4, 5), (6, 7)]
      let done := calls (Pool.supply .boundless).collecting r inputs (Pool.columns, [])
      ∃ before input d, (r.befores done)[3]? = some before ∧ inputs[3]? = some input ∧ done[3]? = some d ∧
        (before.donor.full = true → ∃ j donor, LastUndropped (r.readings done) 3 j ∧ inputs[j]? = some donor ∧
          before.donor.picture.visible = donor.picture.visible) ∧
        (∀ p ∈ d.shown, p = input.picture.visible ∨ before.donor.full = true ∧
          (p = before.donor.picture.visible ∨
            p = Visible.weave .top input.picture.visible before.donor.picture.visible)) ∧
        ∀ fields, 2 ≤ fields → before.slotReads = [fields] → before.donor.full = true →
          d.shown = [Visible.weave .top input.picture.visible before.donor.picture.visible] := by
  obtain ⟨r, built⟩ : ∃ r, (start (Pool.supply .boundless) ⟨.top, "30", 0⟩ .columns Pool.columns).result = .ok r := ⟨_, rfl⟩
  refine ⟨r, built, _, _, _, rfl, rfl, rfl, ?_⟩
  exact donor_of_last_undropped (i := 3) (columns_started built)
    (Frame.columns_fit [(0, 1), (2, 3), (4, 5), (6, 7)]) _ (columns_undisturbed r _) rfl rfl rfl

/-- The fourth input is woven with the second, since the third was dropped. -/
theorem weave_passes_over_dropped :
    ∃ r, (start (Pool.supply .boundless) ⟨.top, "30", 0⟩ .columns Pool.columns).result = .ok r ∧
      let inputs := Frame.columns [(0, 1), (2, 3), (4, 5), (6, 7)]
      ∃ d, (calls (Pool.supply .boundless).collecting r inputs (Pool.columns, []))[3]? = some d ∧
        d.shown = [Visible.weave .top (Picture.column 6 7).visible (Picture.column 2 3).visible] ∧
        ¬ ∀ p ∈ d.shown, p ∈ inputs.map (·.picture.visible) ∨
          p = Visible.weave .top (Picture.column 6 7).visible (Picture.column 4 5).visible := by
  obtain ⟨r, built⟩ : ∃ r, (start (Pool.supply .boundless) ⟨.top, "30", 0⟩ .columns Pool.columns).result = .ok r := ⟨_, rfl⟩
  have accepted : Options.cadence ⟨.top, "30", 0⟩ = .ok ⟨[3, 0], 0, 0, 0, 0, ⟨3, 4⟩, 0⟩ := rfl
  have outputs := ((columns_started built).follows accepted).map_shown
    (Frame.columns_fit [(0, 1), (2, 3), (4, 5), (6, 7)]) _ (columns_undisturbed r _)
  have fourth := congrArg (·[3]?) outputs
  rw [List.getElem?_map] at fourth
  obtain ⟨d, place, shown⟩ := Option.map_eq_some_iff.mp fourth
  refine ⟨r, built, d, place, shown, ?_⟩
  rw [shown]
  decide

end Restorer

end InverseTelecine
