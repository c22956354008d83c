import InverseTelecine.Proofs.Cadence.Circle
import Mathlib.Order.Bounds.Defs

namespace InverseTelecine

/-- How many slots start before a field. -/
def slotsBefore (len : Nat → Nat) (field : Nat) : Nat :=
  ((List.range field).filter fun j => slotStart len j < field).length

/-- The slots whose picture is whole with input `i`: it starts in the first field of `i`, or in the
field before it. -/
def slotsAt (len : Nat → Nat) (i : Nat) : List Nat :=
  (List.range (2 * i + 1)).filter fun j => (slotStart len j + 1) / 2 = i

theorem filter_range_eq_range' {p : Nat → Bool} {a b n : Nat} (order : a ≤ b) (bound : b ≤ n)
    (between : ∀ j, p j = true ↔ a ≤ j ∧ j < b) : (List.range n).filter p = List.range' a (b - a) := by
  have split : List.range n = List.range' 0 a ++ List.range' a (b - a) ++ List.range' b (n - b) := by
    rw [List.range_eq_range', show n = a + (b - a) + (n - b) by omega, ← List.range'_append_1,
      ← List.range'_append_1, show 0 + a = a by omega, show 0 + (a + (b - a)) = b by omega]
    congr 2
    omega
  have low : (List.range' 0 a).filter p = [] := by
    apply List.filter_eq_nil_iff.mpr
    intro j member
    rw [between]
    have inside := List.mem_range'_1.mp member
    omega
  have high : (List.range' b (n - b)).filter p = [] := by
    apply List.filter_eq_nil_iff.mpr
    intro j member
    rw [between]
    have inside := List.mem_range'_1.mp member
    omega
  have middle : (List.range' a (b - a)).filter p = List.range' a (b - a) := by
    apply List.filter_eq_self.mpr
    intro j member
    rw [between]
    have inside := List.mem_range'_1.mp member
    omega
  rw [split, List.filter_append, List.filter_append, low, high, middle, List.nil_append, List.append_nil]

section slots

variable {len : Nat → Nat}

theorem le_slotStart (positive : ∀ i, 0 < len i) (j : Nat) : j ≤ slotStart len j := by
  have bound := mul_le_slotStart positive j
  omega

theorem exists_crossing (positive : ∀ i, 0 < len i) (field : Nat) :
    ∃ b, ∀ j, j < b ↔ slotStart len j < field := by
  induction field with
  | zero => exact ⟨0, fun j => by omega⟩
  | succ field ih =>
    obtain ⟨b, crossing⟩ := ih
    have here := crossing b
    by_cases meets : slotStart len b = field
    · refine ⟨b + 1, fun j => ?_⟩
      rcases Nat.lt_trichotomy j b with before | rfl | after
      · have early := (crossing j).mp before
        omega
      · omega
      · have late := slotStart_lt positive after
        omega
    · refine ⟨b, fun j => ?_⟩
      rw [crossing]
      constructor
      · omega
      · intro low
        rcases Nat.lt_or_ge j b with before | after
        · exact (crossing j).mp before
        · have order := slotStart_mono len after
          omega

theorem lt_slotsBefore_iff (positive : ∀ i, 0 < len i) (j field : Nat) :
    j < slotsBefore len field ↔ slotStart len j < field := by
  obtain ⟨b, crossing⟩ := exists_crossing positive field
  have bound : b ≤ field := by
    rcases Nat.eq_zero_or_pos b with zero | some
    · omega
    · have last := (crossing (b - 1)).mp (by omega)
      have order := le_slotStart positive (b - 1)
      omega
  have counted : slotsBefore len field = b := by
    have initial : ∀ j, decide (slotStart len j < field) = true ↔ 0 ≤ j ∧ j < b := by
      intro j
      rw [decide_eq_true_iff, crossing]
      omega
    rw [slotsBefore, filter_range_eq_range' (Nat.zero_le b) bound initial, List.length_range', Nat.sub_zero]
  rw [counted, crossing]

theorem isLeast_slotsBefore (positive : ∀ i, 0 < len i) (field : Nat) :
    IsLeast {j | field ≤ slotStart len j} (slotsBefore len field) := by
  constructor
  · have edge := lt_slotsBefore_iff positive (slotsBefore len field) field
    show field ≤ _
    omega
  · intro j reached
    have edge := lt_slotsBefore_iff positive j field
    have late : field ≤ slotStart len j := reached
    omega

theorem slotsBefore_eq (positive : ∀ i, 0 < len i) {b field : Nat}
    (crossing : ∀ j, j < b ↔ slotStart len j < field) : slotsBefore len field = b := by
  have below := lt_slotsBefore_iff positive b field
  have above := lt_slotsBefore_iff positive (slotsBefore len field) field
  have left := crossing b
  have right := crossing (slotsBefore len field)
  omega

theorem slotsBefore_mono (positive : ∀ i, 0 < len i) {field later : Nat} (order : field ≤ later) :
    slotsBefore len field ≤ slotsBefore len later := by
  rcases Nat.lt_or_ge (slotsBefore len later) (slotsBefore len field) with less | le
  · have early := (lt_slotsBefore_iff positive _ _).mp less
    have late := lt_slotsBefore_iff positive (slotsBefore len later) later
    omega
  · exact le

theorem slotsBefore_le (positive : ∀ i, 0 < len i) (field : Nat) : slotsBefore len field ≤ field := by
  rcases Nat.lt_or_ge field (slotsBefore len field) with more | le
  · have early := (lt_slotsBefore_iff positive _ _).mp more
    have order := le_slotStart positive field
    omega
  · exact le

theorem slotsAt_eq (positive : ∀ i, 0 < len i) (i : Nat) :
    slotsAt len i = List.range' (slotsBefore len (2 * i - 1))
      (slotsBefore len (2 * i + 1) - slotsBefore len (2 * i - 1)) := by
  apply filter_range_eq_range' (slotsBefore_mono positive (by omega)) (slotsBefore_le positive _)
  intro j
  have left := lt_slotsBefore_iff positive j (2 * i - 1)
  have right := lt_slotsBefore_iff positive j (2 * i + 1)
  rw [decide_eq_true_iff]
  omega

theorem flatMap_slotsAt (positive : ∀ i, 0 < len i) (n : Nat) :
    (List.range n).flatMap (slotsAt len) = List.range (slotsBefore len (2 * n - 1)) := by
  induction n with
  | zero => rfl
  | succ n ih =>
    have order := slotsBefore_mono positive (show 2 * n - 1 ≤ 2 * n + 1 by omega)
    rw [List.range_succ, List.flatMap_append, ih, List.flatMap_singleton, slotsAt_eq positive,
      List.range_eq_range', List.range_eq_range', show 2 * (n + 1) - 1 = 2 * n + 1 by omega]
    have joined := List.range'_append_1 (s := 0) (m := slotsBefore len (2 * n - 1))
      (n := slotsBefore len (2 * n + 1) - slotsBefore len (2 * n - 1))
    rw [Nat.zero_add, Nat.add_sub_cancel' order] at joined
    exact joined

theorem filter_slotsBefore (positive : ∀ i, 0 < len i) {i n : Nat} (inside : i < n) :
    (List.range (slotsBefore len (2 * n - 1))).filter (fun j => (slotStart len j + 1) / 2 = i) = slotsAt len i := by
  rw [slotsAt_eq positive]
  apply filter_range_eq_range' (slotsBefore_mono positive (by omega)) (slotsBefore_mono positive (by omega))
  intro j
  have left := lt_slotsBefore_iff positive j (2 * i - 1)
  have right := lt_slotsBefore_iff positive j (2 * i + 1)
  rw [decide_eq_true_iff]
  omega

/-- Of two layouts that agree from one slot of each on, but for the fields before it, as many slots of each
start before a field. -/
theorem slotsBefore_shift {other : Nat → Nat} (positive : ∀ i, 0 < len i) (otherPositive : ∀ i, 0 < other i)
    {a b ahead : Nat} (agree : ∀ j, ahead + slotStart len (a + j) = slotStart other (b + j)) {field later : Nat}
    (shifted : ∀ n, ahead ≤ n → (n < ahead + field ↔ n < later)) :
    slotsBefore len field - a = slotsBefore other later - b := by
  have same : ∀ j, j < slotsBefore len field - a ↔ j < slotsBefore other later - b := by
    intro j
    have left := lt_slotsBefore_iff positive (a + j) field
    have right := lt_slotsBefore_iff otherPositive (b + j) later
    have here := agree j
    have moved := shifted (slotStart other (b + j)) (by omega)
    omega
  have low := same (slotsBefore len field - a)
  have high := same (slotsBefore other later - b)
  omega

end slots

theorem map_range_split {α : Type} (f : Nat → α) {a n : Nat} (order : a ≤ n) :
    (List.range n).map f = (List.range a).map f ++ (List.range (n - a)).map fun j => f (a + j) := by
  obtain ⟨d, rfl⟩ := Nat.exists_eq_add_of_le order
  rw [List.range_add, List.map_append, List.map_map, Nat.add_sub_cancel_left]
  rfl

theorem drop_map_range {α : Type} (f : Nat → α) (a n : Nat) :
    ((List.range n).map f).drop a = (List.range (n - a)).map fun j => f (a + j) := by
  rw [← List.map_drop, List.range_eq_range', List.drop_range', List.range'_eq_map_range, List.map_map, Nat.mul_one,
    Nat.zero_add]
  rfl

end InverseTelecine
