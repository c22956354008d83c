import InverseTelecine.Options
import InverseTelecine.Proofs.Cadence.Circle
import Mathlib.Order.Bounds.Defs

namespace InverseTelecine

theorem Cadence.fieldCount_append (front back : List Nat) :
    fieldCount (front ++ back) = fieldCount front + fieldCount back := by
  induction front with
  | nil => exact (Nat.zero_add _).symm
  | cons d front ih =>
    show d + fieldCount (front ++ back) = d + fieldCount front + fieldCount back
    rw [ih, Nat.add_assoc]

theorem fieldCount_nonzero (digits : List Nat) :
    Cadence.fieldCount (digits.filter (· ≠ 0)) = Cadence.fieldCount digits := by
  induction digits with
  | nil => rfl
  | cons d digits ih =>
    by_cases zero : d = 0
    · rw [List.filter_cons_of_neg (by simpa using zero), ih, zero]
      exact (Nat.zero_add _).symm
    · rw [List.filter_cons_of_pos (by simpa using zero)]
      exact congrArg (d + ·) ih

section slotStart

variable {digits : List Nat}

theorem slotStart_cyclic_of_le {j : Nat} (bound : j ≤ digits.length) :
    slotStart (cyclic digits) j = Cadence.fieldCount (digits.take j) := by
  induction j with
  | zero => exact slotStart_zero (cyclic digits)
  | succ j ih =>
    rw [slotStart_succ, ih (by omega), cyclic_eq_getElem bound, List.take_succ_eq_append_getElem bound,
      Cadence.fieldCount_append]
    rfl

theorem slotStart_cyclic_length (digits : List Nat) :
    slotStart (cyclic digits) digits.length = Cadence.fieldCount digits := by
  rw [slotStart_cyclic_of_le (Nat.le_refl _), List.take_length]

theorem slotStart_cyclic_turns (digits : List Nat) (turns j : Nat) :
    slotStart (cyclic digits) (digits.length * turns + j) =
      turns * Cadence.fieldCount digits + slotStart (cyclic digits) j := by
  have again : (fun i => cyclic digits (digits.length + i)) = cyclic digits := by
    funext i
    rw [cyclic, cyclic, Nat.add_mod_left]
  induction turns with
  | zero => simp
  | succ turns ih =>
    rw [Nat.mul_succ, Nat.add_comm (digits.length * turns), Nat.add_assoc, slotStart_add, again,
      slotStart_cyclic_length, ih, Nat.succ_mul]
    omega

theorem slotStart_cyclic_whole (digits : List Nat) (turns : Nat) :
    slotStart (cyclic digits) (digits.length * turns) = turns * Cadence.fieldCount digits := by
  rw [← Nat.add_zero (digits.length * turns), slotStart_cyclic_turns, slotStart_zero, Nat.add_zero]

theorem slotStart_cyclic_two (digits : List Nat) :
    slotStart (cyclic digits) (digits.length + digits.length) = 2 * Cadence.fieldCount digits := by
  rw [← Nat.mul_two, slotStart_cyclic_whole]

theorem drop_append_self {count : Nat} (bound : count < digits.length + digits.length) :
    (digits ++ digits).drop count = cyclic digits count :: (digits ++ digits).drop (count + 1) := by
  have inside : count < (digits ++ digits).length := by
    rw [List.length_append]
    exact bound
  rw [List.drop_eq_getElem_cons inside]
  congr 1
  have positive : 0 < digits.length := by omega
  rw [cyclic, List.getD_eq_getElem _ _ (Nat.mod_lt _ positive), List.getElem_append]
  split
  next first => simp only [Nat.mod_eq_of_lt first]
  next second =>
    have wrapped : count % digits.length = count - digits.length := by
      rw [Nat.mod_eq_sub_mod (by omega), Nat.mod_eq_of_lt (by omega)]
    simp only [wrapped]

end slotStart

namespace Cadence

theorem reach_first {digits : List Nat} {target count : Nat}
    (below : slotStart (cyclic digits) count < target)
    (reached : target ≤ slotStart (cyclic digits) (digits.length + digits.length)) :
    ∃ n, n < digits.length + digits.length ∧ slotStart (cyclic digits) n < target ∧
      target ≤ slotStart (cyclic digits) (n + 1) ∧
      reach target ((digits ++ digits).drop count) count (slotStart (cyclic digits) count) =
        some (n + 1, slotStart (cyclic digits) (n + 1) - target) := by
  have bound : count < digits.length + digits.length := by
    rcases Nat.lt_or_ge count (digits.length + digits.length) with bound | past
    · exact bound
    · have order := slotStart_mono (cyclic digits) past
      omega
  rw [drop_append_self bound, reach, ← slotStart_succ]
  by_cases here : target ≤ slotStart (cyclic digits) (count + 1)
  · exact ⟨count, bound, below, here, by rw [if_pos here]⟩
  · rw [if_neg here]
    exact reach_first (Nat.lt_of_not_le here) reached
termination_by digits.length + digits.length - count
decreasing_by omega

theorem reach_start {digits : List Nat} {start : Nat} (inside : start < fieldCount digits) (late : start ≠ 0) :
    ∃ n, n < digits.length + digits.length ∧ slotStart (cyclic digits) n < 2 * start ∧
      2 * start ≤ slotStart (cyclic digits) (n + 1) ∧
      reach (2 * start) (digits ++ digits) 0 0 = some (n + 1, slotStart (cyclic digits) (n + 1) - 2 * start) := by
  have reached : 2 * start ≤ slotStart (cyclic digits) (digits.length + digits.length) := by
    rw [slotStart_cyclic_two]
    omega
  have below : slotStart (cyclic digits) 0 < 2 * start := by
    rw [slotStart_zero]
    omega
  obtain ⟨n, bound, before, after, walked⟩ := reach_first below reached
  rw [List.drop_zero, slotStart_zero] at walked
  exact ⟨n, bound, before, after, walked⟩

theorem cyclic_ne_zero_of_reached {digits : List Nat} {target n : Nat} (before : slotStart (cyclic digits) n < target)
    (after : target ≤ slotStart (cyclic digits) (n + 1)) : cyclic digits n ≠ 0 := by
  intro skipped
  rw [slotStart_succ, skipped] at after
  omega

theorem phaseAt_walk {digits : List Nat} {start : Nat} (inside : start < fieldCount digits) (late : start ≠ 0) :
    ∃ n, n < digits.length + digits.length ∧ slotStart (cyclic digits) n < 2 * start ∧
      2 * start ≤ slotStart (cyclic digits) (n + 1) ∧
      phaseAt digits start = ((n + 1) % digits.length, slotStart (cyclic digits) (n + 1) - 2 * start) := by
  obtain ⟨n, bound, before, after, walked⟩ := reach_start inside late
  exact ⟨n, bound, before, after, by rw [phaseAt, if_neg late, walked]⟩

theorem ne_nil_of_lt {digits : List Nat} {start : Nat} (inside : start < fieldCount digits) : digits ≠ [] := by
  rintro rfl
  exact absurd inside (Nat.not_lt_zero _)

theorem phaseAt_lt {digits : List Nat} {start : Nat} (inside : start < fieldCount digits) :
    (phaseAt digits start).1 < digits.length := by
  have length : 0 < digits.length := List.length_pos_of_ne_nil (ne_nil_of_lt inside)
  by_cases early : start = 0
  · rw [early]
    exact length
  · obtain ⟨n, _, _, _, phase⟩ := phaseAt_walk inside early
    rw [phase]
    exact Nat.mod_lt _ length

theorem phaseAt_carry_le {digits : List Nat} {start bound : Nat} (small : ∀ d ∈ digits, d ≤ bound + 1)
    (inside : start < fieldCount digits) : (phaseAt digits start).2 ≤ bound := by
  by_cases early : start = 0
  · rw [phaseAt, if_pos early]
    exact Nat.zero_le bound
  · obtain ⟨n, _, before, _, phase⟩ := phaseAt_walk inside early
    have digit := small _ (cyclic_mem (ne_nil_of_lt inside) n)
    rw [phase, slotStart_succ]
    simp only
    omega

/-- Reading any number of digits is reading some number of nonzero ones. -/
theorem nonzero_walk (digits : List Nat) (n : Nat) :
    ∃ k, slotStart (cyclic digits) n = slotStart (cyclic (nonzeroFrom digits 0)) k ∧
      nonzeroFrom digits n = (nonzeroFrom digits 0).rotate k := by
  induction n with
  | zero => exact ⟨0, rfl, (List.rotate_zero _).symm⟩
  | succ n ih =>
    obtain ⟨k, total, turned⟩ := ih
    by_cases skipped : cyclic digits n = 0
    · exact ⟨k, by rw [slotStart_succ, skipped, Nat.add_zero, total],
        by rw [nonzeroFrom_succ_of_zero skipped, turned]⟩
    · have digit : cyclic (nonzeroFrom digits 0) k = cyclic digits n := by
        rw [← cyclic_nonzeroFrom_zero skipped, turned, cyclic_rotate, Nat.add_zero]
      exact ⟨k + 1, by rw [slotStart_succ, slotStart_succ, digit, total],
        by rw [nonzeroFrom_succ skipped, turned, List.rotate_rotate]⟩

/-- The slot that the start cuts or meets, and how the phase shows it. -/
theorem phaseAt_least {digits : List Nat} {start k : Nat} (inside : start < fieldCount digits)
    (least : IsLeast {j | 2 * start ≤ slotStart (cyclic (nonzeroFrom digits 0)) j} k) :
    slotStart (cyclic (nonzeroFrom digits 0)) k = 2 * start + (phaseAt digits start).2 ∧
      nonzeroFrom digits (phaseAt digits start).1 = (nonzeroFrom digits 0).rotate k := by
  by_cases early : start = 0
  · have first : k ≤ 0 := least.2 (by simp [early])
    have zero : k = 0 := by omega
    subst early zero
    exact ⟨rfl, (List.rotate_zero _).symm⟩
  · obtain ⟨n, _, before, after, phase⟩ := phaseAt_walk inside early
    obtain ⟨i, total, turned⟩ := nonzero_walk digits n
    have read := cyclic_ne_zero_of_reached before after
    have digit : cyclic (nonzeroFrom digits 0) i = cyclic digits n := by
      rw [← cyclic_nonzeroFrom_zero read, turned, cyclic_rotate, Nat.add_zero]
    have next : slotStart (cyclic (nonzeroFrom digits 0)) (i + 1) = slotStart (cyclic digits) (n + 1) := by
      rw [slotStart_succ, slotStart_succ, digit, total]
    have same : k = i + 1 := by
      have upper : k ≤ i + 1 := least.2 (by show 2 * start ≤ _; rw [next]; exact after)
      have lower : ¬ k ≤ i := by
        intro low
        have order := slotStart_mono (cyclic (nonzeroFrom digits 0)) low
        have target : 2 * start ≤ slotStart (cyclic (nonzeroFrom digits 0)) k := least.1
        omega
      omega
    rw [same, next, phase]
    refine ⟨by simp only; omega, ?_⟩
    rw [nonzeroFrom_mod, nonzeroFrom_succ read, turned, List.rotate_rotate]

/-- The fields of the slots of a stream whose first frame is `start` frames into the pattern. -/
def cutFields (digits : List Nat) (start : Nat) : Nat → Nat :=
  slotFields digits (phaseAt digits start).1 (phaseAt digits start).2

/-- A stream that starts inside a slot has the rest of it as a slot of its own. -/
def cutSlots (digits : List Nat) (start : Nat) : Nat := if (phaseAt digits start).2 = 0 then 0 else 1

theorem cutFields_pos {digits : List Nat} {start : Nat} (inside : start < fieldCount digits)
    (last : digits.getLast? ≠ some 0) (j : Nat) : 0 < cutFields digits start j :=
  slotFields_pos (phaseAt_lt inside) last _ j

section cut

variable {digits : List Nat} {start k : Nat}

theorem cutFields_add (inside : start < fieldCount digits)
    (least : IsLeast {j | 2 * start ≤ slotStart (cyclic (nonzeroFrom digits 0)) j} k) (j : Nat) :
    cutFields digits start (cutSlots digits start + j) = cyclic (nonzeroFrom digits 0) (k + j) := by
  have turned := (phaseAt_least inside least).2
  rw [cutFields, cutSlots, slotFields]
  split
  · rw [turned, cyclic_rotate, Nat.zero_add]
  · rw [if_neg (by omega), turned, cyclic_rotate, Nat.add_sub_cancel_left]

theorem slotStart_cutSlots (inside : start < fieldCount digits)
    (least : IsLeast {j | 2 * start ≤ slotStart (cyclic (nonzeroFrom digits 0)) j} k) :
    2 * start + slotStart (cutFields digits start) (cutSlots digits start) =
      slotStart (cyclic (nonzeroFrom digits 0)) k := by
  rw [(phaseAt_least inside least).1, cutSlots]
  split
  next whole => rw [whole, slotStart_zero]
  next cut => rw [slotStart_succ, slotStart_zero, cutFields, slotFields, if_neg cut, if_pos rfl, Nat.zero_add]

theorem slotStart_cutFields (inside : start < fieldCount digits)
    (least : IsLeast {j | 2 * start ≤ slotStart (cyclic (nonzeroFrom digits 0)) j} k) (j : Nat) :
    2 * start + slotStart (cutFields digits start) (cutSlots digits start + j) =
      slotStart (cyclic (nonzeroFrom digits 0)) (k + j) := by
  rw [slotStart_add, slotStart_add, ← slotStart_cutSlots inside least, Nat.add_assoc]
  congr 3
  funext i
  exact cutFields_add inside least i

theorem cutSlots_eq (inside : start < fieldCount digits)
    (least : IsLeast {j | 2 * start ≤ slotStart (cyclic (nonzeroFrom digits 0)) j} k) :
    cutSlots digits start = if 2 * start < slotStart (cyclic (nonzeroFrom digits 0)) k then 1 else 0 := by
  rw [(phaseAt_least inside least).1, cutSlots]
  split
  · rw [if_neg (by omega)]
  · rw [if_pos (by omega)]

end cut

/-- The counts of fields in a cycle, and up to the digit that reaches the start, are 32-bit numbers. -/
structure Counted (digits : List Nat) (start : Nat) : Prop where
  cycle : fieldCount digits < countLimit
  walk : 2 * start + (phaseAt digits start).2 < countLimit

/-- What a pattern that was accepted says about the cadence. -/
structure Parsed (pattern : String) (start : Nat) (c : Cadence) : Prop where
  read : readDigits 0 pattern.toList = .ok c.digits
  inside : start < fieldCount c.digits
  position : c.position = (phaseAt c.digits start).1
  carry : c.carry = (phaseAt c.digits start).2
  counted : Counted c.digits start

def ofDigits (digits : List Nat) (start : Nat) : Cadence :=
  ⟨digits, (phaseAt digits start).1, (phaseAt digits start).2, (phaseAt digits start).1, (phaseAt digits start).2,
    ⟨fieldCount digits, 2 * digits.length⟩, start⟩

theorem seek_eq_ok {digits : List Nat} {start : Nat} {phase : Nat × Nat} (h : seek digits start = .ok phase) :
    phase = phaseAt digits start ∧ 2 * start + (phaseAt digits start).2 < countLimit := by
  unfold seek at h
  simp only at h
  split at h
  · cases h
  · split at h
    · cases h
    next short =>
      cases h
      exact ⟨rfl, Nat.lt_of_not_le short⟩

theorem Counted.seek_eq {digits : List Nat} {start : Nat} (h : Counted digits start) :
    seek digits start = .ok (phaseAt digits start) := by
  have walk := h.walk
  unfold seek
  simp only
  rw [if_neg (by omega), if_neg (by omega)]

theorem parse_eq_ofDigits {pattern : String} {start : Nat} {c : Cadence} (h : parse pattern start = .ok c) :
    ∃ digits, readDigits 0 pattern.toList = .ok digits ∧ start < fieldCount digits ∧ Counted digits start ∧
      c = ofDigits digits start := by
  unfold parse at h
  split at h
  · cases h
  · cases read : readDigits 0 pattern.toList with
    | error e => rw [read] at h; cases h
    | ok digits =>
      simp only [read] at h
      split at h
      · cases h
      next total =>
        split at h
        · cases h
        next short =>
          cases found : seek digits start with
          | error f => rw [found] at h; cases h
          | ok phase =>
            obtain ⟨rfl, walk⟩ := seek_eq_ok found
            rw [found] at h
            cases h
            exact ⟨digits, rfl, Nat.lt_of_not_le short, ⟨Nat.lt_of_not_le total, walk⟩, rfl⟩

theorem parse_eq_ok {pattern : String} {start : Nat} {c : Cadence} (h : parse pattern start = .ok c) :
    Parsed pattern start c := by
  obtain ⟨digits, read, inside, counted, rfl⟩ := parse_eq_ofDigits h
  exact ⟨read, inside, rfl, rfl, counted⟩

theorem Parsed.slotFields {pattern : String} {start : Nat} {c : Cadence} (h : Parsed pattern start c) :
    slotFields c.digits c.position c.carry = cutFields c.digits start := by
  rw [h.position, h.carry]
  rfl

end Cadence

theorem Options.cadence_eq_ok {options : Options} {c : Cadence} (h : options.cadence = .ok c) :
    Cadence.Parsed options.pattern options.start c := by
  unfold Options.cadence at h
  split at h
  · cases h
  · exact Cadence.parse_eq_ok h

theorem Options.cadence_eq_ofDigits {options : Options} {c : Cadence} (h : options.cadence = .ok c) :
    c = .ofDigits c.digits options.start := by
  unfold Options.cadence at h
  split at h
  · cases h
  · obtain ⟨digits, _, _, _, rfl⟩ := Cadence.parse_eq_ofDigits h
    rfl

end InverseTelecine
