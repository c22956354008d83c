import InverseTelecine.Proofs.Cadence.Phase
import InverseTelecine.Proofs.Media.Pictures

namespace InverseTelecine

structure RowRouter where
  digits : List Nat
  position : Nat
  carry : Nat
  skip : Nat
  held : Option Visible
  first : FieldParity

namespace RowRouter

def walk (digits : List Nat) (target : Nat) : Nat :=
  ((List.range (2 * digits.length + 1)).find? fun n => target ≤ slotStart (cyclic digits) n).getD 0

def start (digits : List Nat) (start : Nat) (first : FieldParity) : RowRouter :=
  let read := walk digits (2 * start)
  ⟨digits, read % digits.length, slotStart (cyclic digits) read - 2 * start, 0, none, first⟩

def readOn (digits : List Nat) (position : Nat) : (left : Nat) → Nat × Nat
  | 0 => (0, position)
  | left + 1 =>
    let digit := digits.getD position 0
    if digit = 0 then readOn digits (position + 1) left else (digit, position + 1)

/-- `len` unless it is zero, else what reading on finds before the pattern ends. -/
def scan (m : RowRouter) (len : Nat) : Nat × RowRouter :=
  let (len, position) :=
    if len = 0 then readOn m.digits m.position (m.digits.length - m.position) else (len, m.position)
  (len, { m with position := if m.digits.length ≤ position then 0 else position })

def showHeld (m : RowRouter) (len : Nat) : List Visible × Nat × RowRouter :=
  match m.held with
  | none => ([], len, m)
  | some held =>
    if len = 1 then ([held], ({ m with held := none } : RowRouter).scan 0) else ([], len, m)

/-- Keeps the count of duplicate fields, unless the only one is in the held picture. -/
def settle (m : RowRouter) (len : Nat) : RowRouter :=
  if len = 1 ∧ m.held.isSome then { m with held := none, skip := 0 } else { m with skip := len }

def showInput (m : RowRouter) (len : Nat) (input : Visible) : List Visible × RowRouter :=
  match m.held with
  | some held =>
    ([Visible.weave m.first input held],
      ({ m with held := if len ≤ 2 then some input else none } : RowRouter).settle (len - 3))
  | none =>
    if 2 ≤ len then ([input], m.settle (len - 2))
    else if len = 1 then ([input], ({ m with held := some input } : RowRouter).settle 0)
    else ([], m.settle len)

def showSlots (m : RowRouter) (input : Visible) : List Visible × RowRouter :=
  let (len, m) := ({ m with carry := 0 } : RowRouter).scan m.carry
  if len = 0 then ([], m)
  else
    let (shown, len, m) := m.showHeld len
    let (rest, m) := m.showInput len input
    (shown ++ rest, m)

/-- Takes the rows of one input and gives the pictures that it completes. -/
def step (m : RowRouter) (input : Visible) : List Visible × RowRouter :=
  if 2 ≤ m.skip then ([], { m with skip := m.skip - 2 })
  else if m.skip = 1 then ([], { m with held := some input, skip := 0 })
  else m.showSlots input

def outputs : RowRouter → List Visible → List (List Visible)
  | _, [] => []
  | m, input :: inputs => (m.step input).1 :: outputs (m.step input).2 inputs

theorem walk_zero (digits : List Nat) : walk digits 0 = 0 := by
  simp [walk, List.range_succ_eq_map]

theorem walk_eq {digits : List Nat} {target n : Nat} (bound : n < digits.length + digits.length)
    (before : slotStart (cyclic digits) n < target) (after : target ≤ slotStart (cyclic digits) (n + 1)) :
    walk digits target = n + 1 := by
  have found : (List.range (2 * digits.length + 1)).find? (fun n => target ≤ slotStart (cyclic digits) n) =
      some (n + 1) := by
    rw [List.find?_range_eq_some]
    refine ⟨by simpa using after, by rw [List.mem_range]; omega, ?_⟩
    intro i earlier
    have order := slotStart_mono (cyclic digits) (Nat.le_of_lt_succ earlier)
    simpa using Nat.lt_of_le_of_lt order before
  rw [walk, found, Option.getD_some]

theorem start_phase {digits : List Nat} {start : Nat} (inside : start < Cadence.fieldCount digits)
    (first : FieldParity) :
    RowRouter.start digits start first =
      ⟨digits, (Cadence.phaseAt digits start).1, (Cadence.phaseAt digits start).2, 0, none, first⟩ := by
  by_cases early : start = 0
  · subst early
    simp only [RowRouter.start, walk_zero, Nat.mul_zero, Nat.zero_mod, slotStart_zero, Nat.sub_zero]
    rfl
  · obtain ⟨n, bound, before, after, phase⟩ := Cadence.phaseAt_walk inside early
    simp only [RowRouter.start, walk_eq bound before after, phase]

theorem readOn_eq (digits : List Nat) (position left : Nat) (whole : left = digits.length - position) :
    readOn digits position left =
      ((Cadence.firstNonzero (digits.drop position)).1,
        position + (Cadence.firstNonzero (digits.drop position)).2) := by
  induction left generalizing position with
  | zero =>
    rw [List.drop_of_length_le (by omega)]
    rfl
  | succ left ih =>
    have inside : position < digits.length := by omega
    rw [readOn, List.drop_eq_getElem_cons inside, List.getD_eq_getElem _ _ inside]
    cases digit : digits[position] with
    | zero =>
      simp only [if_true, Cadence.firstNonzero]
      rw [ih (position + 1) (by omega)]
      congr 1
      omega
    | succ d => simp only [Nat.succ_ne_zero, if_false, Cadence.firstNonzero]

theorem scan_zero (m : RowRouter) :
    m.scan 0 = ((Cadence.firstNonzero (m.digits.drop m.position)).1,
      { m with position := Cadence.nextPosition m.digits m.position }) := by
  simp only [scan, if_true, readOn_eq m.digits m.position _ rfl]
  rfl

theorem scan_of_ne_zero {m : RowRouter} (inside : m.position < m.digits.length) {len : Nat} (given : len ≠ 0) :
    m.scan len = (len, m) := by
  simp only [scan, if_neg given, if_neg (Nat.not_le_of_lt inside)]

theorem length_showHeld_le (m : RowRouter) (len : Nat) : (m.showHeld len).1.length ≤ 1 := by
  unfold showHeld
  cases m.held with
  | none => exact Nat.zero_le 1
  | some held =>
    simp only
    split
    · exact Nat.le_refl 1
    · exact Nat.zero_le 1

theorem length_showInput_le (m : RowRouter) (len : Nat) (input : Visible) :
    (m.showInput len input).1.length ≤ 1 := by
  unfold showInput
  cases m.held with
  | some held => exact Nat.le_refl 1
  | none =>
    simp only
    split
    · exact Nat.le_refl 1
    · split
      · exact Nat.le_refl 1
      · exact Nat.zero_le 1

theorem length_step_le (m : RowRouter) (input : Visible) : (m.step input).1.length ≤ 2 := by
  unfold step
  split
  · exact Nat.zero_le 2
  · split
    · exact Nat.zero_le 2
    · simp only [showSlots]
      split
      · exact Nat.zero_le 2
      · rw [List.length_append]
        exact Nat.add_le_add (length_showHeld_le _ _) (length_showInput_le _ _ _)

end RowRouter

end InverseTelecine
