import InverseTelecine.Proofs.Restorer.Readings
import InverseTelecine.Proofs.Restorer.Reliable

namespace InverseTelecine

namespace RowRouter

variable {m next : RowRouter} {input : Visible} {reads : List Nat} {shown : List Visible}

theorem counted_of_due (due : m.skip = 0) (t : Tally) :
    m.counted t = if m.taken.1 = 0 then { t with dropped := t.dropped + 1 } else t := by
  rw [counted, if_neg (by omega), if_neg (by omega)]
  rfl

theorem Turn.accounts (h : Turn m input reads shown next) (found : reads ≠ [1, 0]) (t : Tally) :
    input ∈ shown ∨ (∃ held, m.held = some held ∧ Visible.weave m.first input held ∈ shown) ∨
      next.held = some input ∨ m.counted t = { t with skipped := t.skipped + 1 } ∨
      m.counted t = { t with dropped := t.dropped + 1 } := by
  cases h with
  | duplicate more =>
    right; right; right; left
    rw [counted, if_pos more]
  | donor one =>
    right; right; left
    rfl
  | empty due read =>
    right; right; right; right
    rw [counted_of_due due, read, if_pos rfl]
  | fresh due read some free =>
    left
    exact List.mem_singleton_self input
  | woven due read two full =>
    right; left
    exact ⟨_, full, List.mem_singleton_self _⟩
  | last due read full again some =>
    left
    exact List.mem_cons_of_mem _ (List.mem_singleton_self input)
  | lost => exact absurd rfl found

theorem Turn.vanishes (h : Turn m input [1, 0] shown next) (t : Tally) :
    ∃ held, m.held = some held ∧ shown = [held] ∧ next.held = none ∧ m.counted t = t := by
  rcases h.of_empty (by decide) with ⟨_, _, _, reads, _⟩ | ⟨n, p, held, due, read, full, _, _, shown, after⟩
  · cases reads
  · refine ⟨held, full, shown, congrArg RowRouter.held after, ?_⟩
    rw [counted_of_due due, read, if_neg Nat.one_ne_zero]

end RowRouter

def Tally.CountsOne (t t' : Tally) : Prop :=
  t'.skipped = t.skipped + 1 ∧ t'.dropped = t.dropped ∨ t'.skipped = t.skipped ∧ t'.dropped = t.dropped + 1

namespace Restorer

variable {σ : Type} {ends : Endpoints σ} {options : Options} {stream : InputStream} {c : Cadence}
  {retiming : Retiming} {r : Restorer} {m : RowRouter}

/-- The call that the restorer made with `input` showed it, kept it or counted it. -/
def Accounts (r : Restorer) (input : Frame) (d : Call σ) : Prop :=
  input.picture.visible ∈ d.shown ∨
    r.donor.full = true ∧
      Visible.weave r.options.first input.picture.visible r.donor.picture.visible ∈ d.shown ∨
    d.restorer.donor.full = true ∧ d.restorer.donor.picture.visible = input.picture.visible ∨
    r.tally.CountsOne d.restorer.tally

/-- The call showed the donor, kept nothing and counted nothing. -/
structure Forgets (r : Restorer) (d : Call σ) : Prop where
  shown : d.shown = [r.donor.picture.visible]
  empty : d.restorer.donor.full = false
  skipped : d.restorer.tally.skipped = r.tally.skipped
  kept : d.restorer.tally.kept = r.tally.kept
  dropped : d.restorer.tally.dropped = r.tally.dropped
  unpaired : d.restorer.tally.unpaired = r.tally.unpaired

theorem Forgets.not_accounts {input : Frame} {d : Call σ} (h : r.Forgets d)
    (other : input.picture.visible ≠ r.donor.picture.visible)
    (apart : Visible.weave r.options.first input.picture.visible r.donor.picture.visible ≠ r.donor.picture.visible) :
    ¬ r.Accounts input d := by
  have skipped := h.skipped
  have dropped := h.dropped
  rintro (copied | ⟨_, woven⟩ | ⟨full, _⟩ | counted | counted)
  · rw [h.shown] at copied
    exact other (List.mem_singleton.mp copied)
  · rw [h.shown] at woven
    exact apart (List.mem_singleton.mp woven)
  · rw [h.empty] at full
    cases full
  · omega
  · omega

theorem Serves.accounts (h : Serves options stream c retiming r m) {input : Frame}
    (fits : input.picture.Fits stream.layout) (s : σ)
    (quiet : (Restorer.call ends r input s).Undisturbed stream.layout) :
    (r.slotReads ≠ [1, 0] → r.Accounts input (Restorer.call ends r input s)) ∧
      (r.slotReads = [1, 0] → r.Forgets (Restorer.call ends r input s)) := by
  obtain ⟨gives, follows⟩ := h.follows.call fits s quiet.supplied
  have shown := (gives.whole quiet).2
  have tally := (h.call fits ends s).2.2
  have turn := m.step_turn input.picture.visible
  rw [h.follows.reads]
  constructor
  · intro found
    rcases turn.accounts found { r.tally with accepted := r.tally.accepted + 1 } with
      copied | ⟨held, full, woven⟩ | kept | skipped | dropped
    · left
      rwa [shown]
    · right; left
      obtain ⟨flag, picture⟩ := h.follows.held_eq_some full
      rw [shown, picture, h.follows.first]
      exact ⟨flag, woven⟩
    · right; right; left
      exact follows.held_eq_some kept
    · right; right; right; left
      rw [tally, skipped]
      exact ⟨rfl, rfl⟩
    · right; right; right; right
      rw [tally, dropped]
      exact ⟨rfl, rfl⟩
  · intro lost
    rw [lost] at turn
    obtain ⟨held, full, only, free, same⟩ := turn.vanishes { r.tally with accepted := r.tally.accepted + 1 }
    obtain ⟨_, picture⟩ := h.follows.held_eq_some full
    rw [same] at tally
    refine ⟨?_, ?_, ?_, ?_, ?_, ?_⟩
    · rw [shown, only, picture]
    · rw [follows.isFull, free]
      rfl
    all_goals rw [tally]

/-- Each input is shown, kept or counted by its call, unless an empty slot is met behind the last field of the
donor; then it is as if it never came. -/
theorem inputs_accounted (started : r.Started options stream) {inputs : List Frame}
    (fits : ∀ f ∈ inputs, f.picture.Fits stream.layout) (s : σ)
    (quiet : ∀ d ∈ calls ends r inputs s, d.Undisturbed stream.layout) {i : Nat} {before : Restorer} {input : Frame}
    {d : Call σ} (here : (r.befores (calls ends r inputs s))[i]? = some before) (fed : inputs[i]? = some input)
    (place : (calls ends r inputs s)[i]? = some d) :
    (before.slotReads ≠ [1, 0] → before.Accounts input d) ∧ (before.slotReads = [1, 0] → before.Forgets d) := by
  obtain ⟨c, accepted⟩ := started.cadence
  obtain ⟨retiming, _, serves⟩ := started.serves accepted
  obtain ⟨t, rfl, serves'⟩ := serves.calls_at fits s here fed place
  exact serves'.accounts (fits _ (List.mem_of_getElem? fed)) t (quiet _ (List.mem_of_getElem? place))

theorem inputs_accounted_columns :
    ∃ r, (start (Pool.supply .boundless) ⟨.top, "110", 0⟩ .columns Pool.columns).result = .ok r ∧
      let inputs := Frame.columns [(0, 1), (2, 3)]
      let done := calls (Pool.supply .boundless).collecting r inputs (Pool.columns, [])
      ∃ before input d, (r.befores done)[1]? = some before ∧ inputs[1]? = some input ∧ done[1]? = some d ∧
        (before.slotReads ≠ [1, 0] → before.Accounts input d) ∧ (before.slotReads = [1, 0] → before.Forgets d) := by
  obtain ⟨r, built⟩ : ∃ r, (start (Pool.supply .boundless) ⟨.top, "110", 0⟩ .columns Pool.columns).result = .ok r := ⟨_, rfl⟩
  refine ⟨r, built, _, _, _, rfl, rfl, rfl, ?_⟩
  exact inputs_accounted (i := 1) (columns_started built) (Frame.columns_fit [(0, 1), (2, 3)]) _
    (columns_undisturbed r _) rfl rfl rfl

theorem input_forgotten :
    ∃ r, (start (Pool.supply .boundless) ⟨.top, "110", 0⟩ .columns Pool.columns).result = .ok r ∧
      let inputs := Frame.columns [(0, 1), (2, 3)]
      let done := calls (Pool.supply .boundless).collecting r inputs (Pool.columns, [])
      ∃ before input d, (r.befores done)[1]? = some before ∧ inputs[1]? = some input ∧ done[1]? = some d ∧
        ¬ before.Accounts input d := by
  obtain ⟨r, built⟩ : ∃ r, (start (Pool.supply .boundless) ⟨.top, "110", 0⟩ .columns Pool.columns).result = .ok r := ⟨_, rfl⟩
  have accepted : Options.cadence ⟨.top, "110", 0⟩ = .ok ⟨[1, 1, 0], 0, 0, 0, 0, ⟨2, 6⟩, 0⟩ := rfl
  obtain ⟨_, _, serves⟩ := (columns_started built).serves accepted
  have quiet := columns_undisturbed r (Frame.columns [(0, 1), (2, 3)])
  have first : (Frame.ofPicture (.column 0 1)).picture.Fits .column := Picture.column_fits 0 1
  have second : (Frame.ofPicture (.column 2 3)).picture.Fits .column := Picture.column_fits 2 3
  have behind := (serves.call first (Pool.supply .boundless).collecting (Pool.columns, [])).2.1
  refine ⟨r, built, _, _, _, rfl, rfl, rfl, ?_⟩
  have forgets := (behind.accounts second _ (quiet _ (.tail _ (.head _)))).2 (behind.follows.reads.trans (by decide))
  obtain ⟨_, picture⟩ := behind.follows.held_eq_some rfl
  apply forgets.not_accounts
  · rw [picture]
    decide
  · rw [picture, behind.options_eq]
    decide

end Restorer

end InverseTelecine
