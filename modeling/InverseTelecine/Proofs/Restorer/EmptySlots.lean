import InverseTelecine.Proofs.Cadence.TrailingZeros
import InverseTelecine.Proofs.Restorer.Outputs
import InverseTelecine.Proofs.Restorer.Readings

namespace InverseTelecine

namespace RowRouter

/-- `m` reads the digits of `m'` with zeros behind them. -/
structure Pads (m m' : RowRouter) : Prop where
  zeros : ∃ zeros, m.digits = m'.digits ++ List.replicate zeros 0
  inside : m.position < m.digits.length
  place : Cadence.SamePlace m'.digits m.position m'.position
  filled : m'.digits ≠ []
  last : m'.digits.getLast? ≠ some 0
  carry : m.carry = m'.carry
  first : m.first = m'.first

variable {m m' : RowRouter}

theorem Pads.congr (h : Pads m m') (held held' : Option Visible) (skip skip' : Nat) :
    Pads { m with held, skip } { m' with held := held', skip := skip' } :=
  ⟨h.zeros, h.inside, h.place, h.filled, h.last, h.carry, h.first⟩

theorem Pads.spend (h : Pads m m') : Pads { m with carry := 0 } { m' with carry := 0 } :=
  ⟨h.zeros, h.inside, h.place, h.filled, h.last, rfl, h.first⟩

theorem wrapped_eq_mod {n length : Nat} (near : n ≤ length) : (if length ≤ n then 0 else n) = n % length := by
  rcases Nat.lt_or_eq_of_le near with before | rfl
  · rw [if_neg (Nat.not_le_of_lt before), Nat.mod_eq_of_lt before]
  · rw [if_pos (Nat.le_refl n), Nat.mod_self]

section reading

variable {n : RowRouter} {fields : Nat}

theorem Pads.scan_empty (h : Pads m m') (read : m.scan 0 = (0, n)) :
    m.position ≠ 0 ∧ n = { m with position := 0 } ∧ Pads n m' := by
  obtain ⟨zeros, padded⟩ := h.zeros
  rw [scan_zero, Prod.mk.injEq] at read
  obtain ⟨none, rfl⟩ := read
  -- Zeros alone are ahead only behind the last digit, where `m'` is at the first one already.
  rcases Nat.lt_or_eq_of_le h.place.near with before | met
  · obtain ⟨count, _, _, _, found, some⟩ := Cadence.firstNonzero_drop before h.last
    rw [padded, List.drop_append_of_le_length h.place.near, Cadence.firstNonzero_append (found ▸ some)] at none
    exact absurd (found.trans none) some
  · have behind : m.position ≠ 0 := by
      rw [met]
      exact (List.length_pos_of_ne_nil h.filled).ne'
    have whole : m.digits.length = m.position + zeros := by rw [met, padded, List.length_append, List.length_replicate]
    have past : Cadence.firstNonzero (m.digits.drop m.position) = (0, zeros) := by
      rw [padded, met, List.drop_left, Cadence.firstNonzero_zeros]
    have next : Cadence.nextPosition m.digits m.position = 0 := by
      rw [Cadence.nextPosition, past, whole, if_pos (Nat.le_refl _)]
    have origin : m'.position = 0 := by rw [h.place.wrapped, met, Nat.mod_self]
    rw [next]
    refine ⟨behind, rfl, h.zeros, Nat.zero_lt_of_lt h.inside, ?_, h.filled, h.last, h.carry, h.first⟩
    rw [origin]
    exact ⟨Nat.zero_le _, (Nat.zero_mod _).symm⟩

theorem Pads.scan_some (h : Pads m m') (read : m.scan 0 = (fields, n)) (some : 0 < fields) :
    ∃ n', m'.scan 0 = (fields, n') ∧ Pads n n' := by
  obtain ⟨zeros, padded⟩ := h.zeros
  have whole : m.digits.length = m'.digits.length + zeros := by rw [padded, List.length_append, List.length_replicate]
  rw [scan_zero, Prod.mk.injEq] at read
  obtain ⟨found, rfl⟩ := read
  rcases Nat.lt_or_eq_of_le h.place.near with before | met
  · have same : m'.position = m.position := by rw [h.place.wrapped, Nat.mod_eq_of_lt before]
    obtain ⟨count, counted, bound, _, digit, read⟩ := Cadence.firstNonzero_drop before h.last
    have alike : Cadence.firstNonzero (m.digits.drop m.position) =
        Cadence.firstNonzero (m'.digits.drop m.position) := by
      rw [padded, List.drop_append_of_le_length h.place.near, Cadence.firstNonzero_append (digit ▸ read)]
    have after : Cadence.nextPosition m.digits m.position < m.digits.length := by
      apply Cadence.nextPosition_lt
      simp [padded, h.filled]
    have place : Cadence.SamePlace m'.digits (Cadence.nextPosition m.digits m.position)
        (Cadence.nextPosition m'.digits m.position) := by
      simp only [Cadence.nextPosition, alike, counted, whole]
      rw [wrapped_eq_mod (by omega), wrapped_eq_mod (by omega)]
      exact .of_mod (by omega) zeros
    rw [scan_zero, same, ← alike, found]
    exact ⟨_, rfl, h.zeros, after, place, h.filled, h.last, h.carry, h.first⟩
  · rw [padded, met, List.drop_left, Cadence.firstNonzero_zeros] at found
    exact absurd found some.ne

theorem taken_of_spent (spent : m.carry = 0) : m.taken = m.scan 0 := by
  have same : ({ m with carry := 0 } : RowRouter) = m := by rw [← spent]
  rw [RowRouter.taken, same, spent]

theorem taken_of_carried (inside : m.position < m.digits.length) (carried : m.carry ≠ 0) :
    m.taken = (m.carry, { m with carry := 0 }) :=
  scan_of_ne_zero (by exact inside) carried

theorem Pads.taken_empty (h : Pads m m') (read : m.taken = (0, n)) : m.position ≠ 0 ∧ Pads n m' := by
  by_cases carried : m.carry = 0
  · rw [taken_of_spent carried] at read
    obtain ⟨behind, _, pads⟩ := h.scan_empty read
    exact ⟨behind, pads⟩
  · rw [taken_of_carried h.inside carried] at read
    exact absurd (congrArg Prod.fst read) carried

theorem Pads.taken_some (h : Pads m m') (read : m.taken = (fields, n)) (some : 0 < fields) :
    ∃ n', m'.taken = (fields, n') ∧ Pads n n' ∧ n.carry = 0 := by
  by_cases carried : m.carry = 0
  · rw [taken_of_spent carried] at read
    rw [taken_of_spent (h.carry ▸ carried)]
    obtain ⟨n', read', pads⟩ := h.scan_some read some
    rw [scan_zero, Prod.mk.injEq] at read
    exact ⟨n', read', pads, read.2 ▸ carried⟩
  · have inside' : m'.position < m'.digits.length := by
      rw [h.place.wrapped]
      exact Nat.mod_lt _ (List.length_pos_of_ne_nil h.filled)
    rw [taken_of_carried h.inside carried, Prod.mk.injEq] at read
    obtain ⟨rfl, rfl⟩ := read
    rw [taken_of_carried inside' (h.carry ▸ carried), ← h.carry]
    exact ⟨_, rfl, h.spend, rfl⟩

end reading

/-- `m` is where `m'` is, or ahead of it by the picture that `m'` still holds. -/
inductive Trails (m m' : RowRouter) : List Visible → Prop where
  | even (pads : Pads m m') (skip : m.skip = m'.skip) (held : m.held = m'.held) : Trails m m' []
  | ahead {n' : RowRouter} {held : Visible} (pads : Pads m n') (start : m.position = 0) (spent : m.carry = 0)
    (due : m.skip = 0) (free : m.held = none) (due' : m'.skip = 0) (full : m'.held = some held)
    (read : m'.taken = (1, n')) : Trails m m' [held]

theorem Pads.cover (h : Pads m m') (input : Visible) (fields : Nat) :
    Trails (m.cover input fields) (m'.cover input fields) [] := by
  unfold RowRouter.cover
  split
  · exact .even (h.congr _ _ _ _) rfl rfl
  · exact .even (h.congr _ _ _ _) rfl rfl

variable {owed : List Visible}

theorem Trails.drop (h : Trails m m' owed) (dropped : 0 ∈ m.reads) (input : Visible) :
    owed = [] ∧ Trails (m.step input).2 m' (m.step input).1 := by
  rcases (m.step_turn input).of_empty dropped with
    ⟨n, due, read, -, shown, after⟩ | ⟨n, p, kept, due, read, full, again, -, shown, after⟩ <;> rw [shown, after]
  · cases h with
    | even pads skip held =>
      obtain ⟨skipped, kept, -⟩ := kept_of_taken read
      exact ⟨rfl, .even (pads.taken_empty read).2 (skipped.trans skip) (kept.trans held)⟩
    | ahead pads start => exact absurd start (pads.taken_empty read).1
  · cases h with
    | even pads skip held =>
      obtain ⟨n', read', behind, spent⟩ := pads.taken_some read Nat.one_pos
      obtain ⟨_, rfl, origin⟩ := behind.scan_empty again
      exact ⟨rfl, .ahead (origin.congr none n'.held 0 n'.skip) rfl spent rfl rfl (skip ▸ due) (held ▸ full) read'⟩
    | ahead pads start spent due free =>
      rw [free] at full
      cases full

theorem Trails.take (h : Trails m m' owed) (filled : 0 ∉ m.reads) (input : Visible) :
    owed ++ (m.step input).1 = (m'.step input).1 ∧ Trails (m.step input).2 (m'.step input).2 [] := by
  have turn := m.step_turn input
  generalize m.reads = reads at filled turn
  generalize m.step input = stepped at turn ⊢
  obtain ⟨shown, next⟩ := stepped
  simp only at turn ⊢
  cases h with
  | even pads skip held =>
    cases turn with
    | duplicate more =>
      rw [skip] at more ⊢
      rw [(show Turn m' input _ _ _ from .duplicate more).eq.2]
      exact ⟨rfl, .even (pads.congr _ _ _ _) rfl held⟩
    | donor one =>
      rw [(show Turn m' input _ _ _ from .donor (skip ▸ one)).eq.2]
      exact ⟨rfl, .even (pads.congr _ _ _ _) rfl rfl⟩
    | empty due read => exact absurd (List.mem_singleton_self 0) filled
    | fresh due read some free =>
      obtain ⟨n', read', pads', -⟩ := pads.taken_some read some
      rw [(show Turn m' input _ _ _ from .fresh (skip ▸ due) read' some (held ▸ free)).eq.2]
      exact ⟨rfl, pads'.cover input _⟩
    | woven due read two full =>
      obtain ⟨n', read', pads', -⟩ := pads.taken_some read (by omega)
      rw [(show Turn m' input _ _ _ from .woven (skip ▸ due) read' two (held ▸ full)).eq.2, pads.first]
      exact ⟨rfl, pads'.cover input _⟩
    | last due read full again some =>
      obtain ⟨n', read', pads', -⟩ := pads.taken_some read Nat.one_pos
      obtain ⟨next', again', pads''⟩ := pads'.scan_some again some
      rw [(show Turn m' input _ _ _ from .last (skip ▸ due) read' (held ▸ full) again' some).eq.2]
      exact ⟨rfl, pads''.cover input _⟩
    | lost due read full again => exact absurd (by simp) filled
  | ahead pads start spent due free due' full read' =>
    -- `m'` now shows the picture that `m` has shown, and both begin the next slot with this input.
    cases turn with
    | duplicate more => omega
    | donor one => omega
    | empty _ read => exact absurd (List.mem_singleton_self 0) filled
    | fresh _ read some =>
      rw [taken_of_spent spent] at read
      obtain ⟨next', again, pads'⟩ := pads.scan_some read some
      rw [(show Turn m' input _ _ _ from .last due' read' full again some).eq.2]
      exact ⟨rfl, pads'.cover input _⟩
    | woven _ _ _ held => cases free.symm.trans held
    | last _ _ held => cases free.symm.trans held
    | lost _ _ held => cases free.symm.trans held

theorem Trails.run (h : Trails m m' []) (inputs : List Visible) :
    let kept := undropped inputs (m.readings inputs)
    ∃ owed, Trails (m.after inputs) (m'.after kept) owed ∧
      (m.outputs inputs).flatten = (m'.outputs kept).flatten ++ owed ∧
      (owed ≠ [] ↔ (m.readings inputs).getLast? = some [1, 0]) := by
  induction inputs using List.reverseRecOn with
  | nil => exact ⟨[], h, rfl, by simp [readings]⟩
  | append_singleton inputs input ih =>
    intro kept
    obtain ⟨owed, trails, shown, -⟩ := ih
    have same := (m.length_readings inputs).symm
    rw [outputs_concat, after_concat, readings_concat, List.flatten_append, List.flatten_singleton, shown,
      List.getLast?_concat]
    by_cases dropped : 0 ∈ (m.after inputs).reads
    · obtain ⟨rfl, trails'⟩ := trails.drop dropped input
      have stays : kept = undropped inputs (m.readings inputs) := by
        rw [← undropped_concat_of_mem dropped same, ← readings_concat]
      rw [stays, List.append_nil]
      refine ⟨_, trails', rfl, ?_⟩
      rcases ((m.after inputs).step_turn input).of_empty dropped with
        ⟨_, _, _, reads, none, _⟩ | ⟨_, _, _, _, _, _, _, reads, some, _⟩
      · rw [reads, none]
        simp
      · rw [reads, some]
        simp
    · obtain ⟨shown', trails'⟩ := trails.take dropped input
      have grows : kept = undropped inputs (m.readings inputs) ++ [input] := by
        rw [← undropped_concat_of_not_mem dropped same, ← readings_concat]
      rw [grows, outputs_concat, after_concat, List.flatten_append, List.flatten_singleton, List.append_assoc, shown']
      refine ⟨[], trails', (List.append_nil _).symm, ?_⟩
      simp only [ne_eq, not_true, false_iff, Option.some.injEq]
      intro lost
      rw [lost] at dropped
      exact dropped (by simp)

theorem Trails.held (h : Trails m m' owed) (some : owed ≠ []) : ∃ held, m'.held = .some held ∧ owed = [held] := by
  cases h with
  | even => exact absurd rfl some
  | ahead pads start spent due free due' full => exact ⟨_, full, rfl⟩

theorem trails_start {digits : List Nat} {start : Nat} (inside : start < Cadence.fieldCount digits)
    (last : digits.getLast? ≠ some 0) (zeros : Nat) (first : FieldParity) :
    Trails (.start (digits ++ List.replicate zeros 0) start first) (.start digits start first) [] := by
  have inside' : start < Cadence.fieldCount (digits ++ List.replicate zeros 0) := by
    rw [Cadence.fieldCount_append_zeros]
    exact inside
  obtain ⟨place, carry⟩ := Cadence.phaseAt_append_zeros digits zeros start
  rw [start_phase inside, start_phase inside']
  exact .even ⟨⟨zeros, rfl⟩, Cadence.phaseAt_lt inside', place, Cadence.ne_nil_of_lt inside, last, carry, rfl⟩ rfl rfl

end RowRouter

namespace Restorer

variable {σ τ : Type} {ends : Endpoints σ} {trimmedEnds : Endpoints τ} {options : Options} {stream : InputStream}
  {whole trimmed : Restorer}

/-- Zeros at the end of a pattern do nothing but delete the inputs for which one of them is read. Only a picture
that was shown before the last input was dropped is ahead of what is shown without them. -/
theorem empty_slots_delete_inputs (wholeStarted : whole.Started options stream)
    (trimmedStarted : trimmed.Started options.trimmed stream) {inputs : List Frame}
    (fits : ∀ f ∈ inputs, f.picture.Fits stream.layout) (s : σ) (t : τ)
    (wholeQuiet : ∀ d ∈ calls ends whole inputs s, d.Undisturbed stream.layout)
    (trimmedQuiet : ∀ d ∈ calls trimmedEnds trimmed (undropped inputs (whole.readings (calls ends whole inputs s))) t,
      d.Undisturbed stream.layout) :
    let done := calls ends whole inputs s
    let rest := calls trimmedEnds trimmed (undropped inputs (whole.readings done)) t
    ((whole.readings done).getLast? ≠ some [1, 0] → done.flatMap Call.shown = rest.flatMap Call.shown) ∧
      ((whole.readings done).getLast? = some [1, 0] → (trimmed.lastOf rest).donor.full = true ∧
        done.flatMap Call.shown = rest.flatMap Call.shown ++ [(trimmed.lastOf rest).donor.picture.visible]) := by
  intro done rest
  obtain ⟨c, accepted⟩ := wholeStarted.cadence
  obtain ⟨digits, zeros, trimmedAccepted, padded, last⟩ := Options.cadence_trimmed accepted
  have inside : options.start < Cadence.fieldCount digits := (Options.cadence_eq_ok trimmedAccepted).inside
  have follows := wholeStarted.follows accepted
  rw [padded] at follows
  have trimmedFollows : Follows stream.layout trimmed (.start digits options.start options.first) :=
    trimmedStarted.follows trimmedAccepted
  have read := (follows.readings fits s fun d member => (wholeQuiet d member).supplied).1
  have kept := map_undropped (fun f : Frame => f.picture.visible) inputs (whole.readings done)
  have keptFits : ∀ f ∈ undropped inputs (whole.readings done), f.picture.Fits stream.layout :=
    fun f member => fits f (mem_of_mem_undropped member)
  have shown : done.flatMap Call.shown = _ := follows.shown fits s wholeQuiet
  have restShown : rest.flatMap Call.shown = _ := trimmedFollows.shown keptFits t trimmedQuiet
  have restLast := (trimmedFollows.readings keptFits t fun d member => (trimmedQuiet d member).supplied).2
  have trails := RowRouter.trails_start inside last zeros options.first
  obtain ⟨owed, ahead, joined, lost⟩ := trails.run (inputs.map (·.picture.visible))
  rw [← read] at ahead joined lost
  rw [kept] at restShown restLast
  constructor
  · intro taken
    have none : owed = [] := by_contra fun some => taken (lost.mp some)
    rw [shown, restShown, joined, none, List.append_nil]
  · intro dropped
    obtain ⟨held, full, rfl⟩ := ahead.held (lost.mpr dropped)
    obtain ⟨flag, picture⟩ := restLast.held_eq_some full
    refine ⟨flag, ?_⟩
    rw [shown, restShown, joined, picture]

theorem empty_slots_delete_inputs_columns :
    ∃ whole trimmed, (start (Pool.supply .boundless) ⟨.top, "32100", 2⟩ .columns Pool.columns).result = .ok whole ∧
      (start (Pool.supply .boundless) ⟨.top, "321", 2⟩ .columns Pool.columns).result = .ok trimmed ∧
      let inputs := Frame.columns [(0, 1), (2, 3), (4, 5), (6, 7), (8, 9), (10, 11)]
      let done := calls (Pool.supply .boundless).collecting whole inputs (Pool.columns, [])
      let rest := calls (Pool.supply .boundless).collecting trimmed (undropped inputs (whole.readings done))
        (Pool.columns, [])
      whole.readings done = [[1], [1, 0], [3], [], [2], [1, 0]] ∧ (trimmed.lastOf rest).donor.full = true ∧
        done.flatMap Call.shown = rest.flatMap Call.shown ++ [(trimmed.lastOf rest).donor.picture.visible] := by
  obtain ⟨whole, built⟩ :
      ∃ r, (start (Pool.supply .boundless) ⟨.top, "32100", 2⟩ .columns Pool.columns).result = .ok r := ⟨_, rfl⟩
  obtain ⟨trimmed, trimmedBuilt⟩ :
      ∃ r, (start (Pool.supply .boundless) ⟨.top, "321", 2⟩ .columns Pool.columns).result = .ok r := ⟨_, rfl⟩
  have accepted : Options.cadence ⟨.top, "32100", 2⟩ = .ok ⟨[3, 2, 1, 0, 0], 2, 1, 2, 1, ⟨6, 10⟩, 2⟩ := rfl
  have started := columns_started built
  have fits := Frame.columns_fit [(0, 1), (2, 3), (4, 5), (6, 7), (8, 9), (10, 11)]
  refine ⟨whole, trimmed, built, trimmedBuilt, ?_⟩
  intro inputs done rest
  have supplied : ∀ d ∈ done, d.Supplied .column := fun d member => (columns_undisturbed whole _ d member).supplied
  have read : whole.readings done = [[1], [1, 0], [3], [], [2], [1, 0]] :=
    ((started.follows accepted).readings fits _ supplied).1
  have run := empty_slots_delete_inputs started (columns_started trimmedBuilt) fits _ _
    (columns_undisturbed whole _) (columns_undisturbed trimmed _)
  exact ⟨read, run.2 (congrArg List.getLast? read)⟩

end Restorer

end InverseTelecine
