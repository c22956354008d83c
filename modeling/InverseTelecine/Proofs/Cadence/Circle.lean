import InverseTelecine.Cadence
import Mathlib.Algebra.BigOperators.Group.Finset.Basic
import Mathlib.Algebra.Order.BigOperators.Group.Finset
import Mathlib.Data.List.GetD
import Mathlib.Data.List.Rotate

namespace InverseTelecine

/-- The number at place `i` of a list read in a circle. -/
def cyclic (ds : List Nat) (i : Nat) : Nat := ds.getD (i % ds.length) 0

/-- The first field of slot `j`, where slot `i` has `len i` fields. -/
def slotStart (len : Nat → Nat) (j : Nat) : Nat := ∑ i ∈ Finset.range j, len i

def nonzeroFrom (digits : List Nat) (position : Nat) : List Nat :=
  (digits.rotate position).filter (· ≠ 0)

/-- The fields of the slots that are read from a position on; a carry is a slot of its own. -/
def slotFields (digits : List Nat) (position carry : Nat) (j : Nat) : Nat :=
  if carry = 0 then cyclic (nonzeroFrom digits position) j
  else if j = 0 then carry else cyclic (nonzeroFrom digits position) (j - 1)

section slotStart

variable {len other : Nat → Nat}

@[simp] theorem slotStart_zero (len : Nat → Nat) : slotStart len 0 = 0 := Finset.sum_range_zero len

theorem slotStart_succ (len : Nat → Nat) (j : Nat) : slotStart len (j + 1) = slotStart len j + len j :=
  Finset.sum_range_succ len j

theorem slotStart_add (len : Nat → Nat) (k j : Nat) :
    slotStart len (k + j) = slotStart len k + slotStart (fun i => len (k + i)) j :=
  Finset.sum_range_add len k j

theorem slotStart_mono (len : Nat → Nat) {j k : Nat} (order : j ≤ k) : slotStart len j ≤ slotStart len k := by
  obtain ⟨d, rfl⟩ := Nat.exists_eq_add_of_le order
  rw [slotStart_add]
  exact Nat.le_add_right _ _

theorem slotStart_lt (positive : ∀ i, 0 < len i) {j k : Nat} (order : j < k) :
    slotStart len j < slotStart len k := by
  have step : slotStart len j < slotStart len (j + 1) := by
    have here := positive j
    rw [slotStart_succ]
    omega
  exact Nat.lt_of_lt_of_le step (slotStart_mono len order)

theorem mul_le_slotStart {least : Nat} (lower : ∀ i, least ≤ len i) (j : Nat) : least * j ≤ slotStart len j := by
  induction j with
  | zero => simp
  | succ j ih =>
    have here := lower j
    rw [slotStart_succ, Nat.mul_succ]
    omega

end slotStart

section cyclic

variable {ds : List Nat}

theorem cyclic_mem (filled : ds ≠ []) (i : Nat) : cyclic ds i ∈ ds := by
  have bound : i % ds.length < ds.length := Nat.mod_lt _ (List.length_pos_of_ne_nil filled)
  rw [cyclic, List.getD_eq_getElem _ _ bound]
  exact List.getElem_mem bound

theorem cyclic_rotate (ds : List Nat) (k i : Nat) : cyclic (ds.rotate k) i = cyclic ds (k + i) := by
  rcases List.eq_nil_or_concat' ds with rfl | ⟨_, _, rfl⟩
  · simp [cyclic]
  · rename_i front last
    have bound : i % (front ++ [last]).length < (front ++ [last]).length := Nat.mod_lt _ (by simp)
    rw [cyclic, cyclic, List.getD_eq_getElem?_getD, List.getD_eq_getElem?_getD, List.length_rotate,
      List.getElem?_rotate bound, Nat.mod_add_mod, Nat.add_comm]

theorem rotate_eq_cons (filled : ds ≠ []) (i : Nat) :
    ∃ rest, ds.rotate i = cyclic ds i :: rest ∧ ds.rotate (i + 1) = rest ++ [cyclic ds i] := by
  have head : cyclic (ds.rotate i) 0 = cyclic ds i := cyclic_rotate ds i 0
  cases turned : ds.rotate i with
  | nil => exact absurd (List.rotate_eq_nil_iff.mp turned) filled
  | cons d rest =>
    rw [turned] at head
    have first : d = cyclic ds i := by simpa [cyclic] using head
    refine ⟨rest, by rw [first], ?_⟩
    rw [← List.rotate_rotate, turned, List.rotate_cons_succ, List.rotate_zero, first]

theorem cyclic_eq_getElem {i : Nat} (bound : i < ds.length) : cyclic ds i = ds[i] := by
  rw [cyclic, Nat.mod_eq_of_lt bound, List.getD_eq_getElem _ _ bound]

end cyclic

section nonzeroFrom

variable {digits : List Nat} {position : Nat}

theorem nonzeroFrom_zero (digits : List Nat) : nonzeroFrom digits 0 = digits.filter (· ≠ 0) := by
  rw [nonzeroFrom, List.rotate_zero]

theorem nonzeroFrom_mod (digits : List Nat) (position : Nat) :
    nonzeroFrom digits (position % digits.length) = nonzeroFrom digits position := by
  rw [nonzeroFrom, nonzeroFrom, List.rotate_mod]

theorem nonzeroFrom_succ_of_zero (skipped : cyclic digits position = 0) :
    nonzeroFrom digits (position + 1) = nonzeroFrom digits position := by
  by_cases filled : digits = []
  · simp [filled, nonzeroFrom]
  · obtain ⟨rest, here, next⟩ := rotate_eq_cons filled position
    rw [nonzeroFrom, nonzeroFrom, here, next, skipped]
    simp

theorem nonzeroFrom_eq_cons (read : cyclic digits position ≠ 0) :
    ∃ rest, nonzeroFrom digits position = cyclic digits position :: rest ∧
      nonzeroFrom digits (position + 1) = rest ++ [cyclic digits position] := by
  have filled : digits ≠ [] := by
    rintro rfl
    exact read rfl
  obtain ⟨rest, here, next⟩ := rotate_eq_cons filled position
  refine ⟨rest.filter (· ≠ 0), ?_, ?_⟩
  · rw [nonzeroFrom, here, List.filter_cons_of_pos (by simpa using read)]
  · rw [nonzeroFrom, next, List.filter_append, List.filter_cons_of_pos (by simpa using read), List.filter_nil]

theorem nonzeroFrom_succ (read : cyclic digits position ≠ 0) :
    nonzeroFrom digits (position + 1) = (nonzeroFrom digits position).rotate 1 := by
  obtain ⟨rest, here, next⟩ := nonzeroFrom_eq_cons read
  rw [here, next, List.rotate_cons_succ, List.rotate_zero]

theorem cyclic_nonzeroFrom_zero (read : cyclic digits position ≠ 0) :
    cyclic (nonzeroFrom digits position) 0 = cyclic digits position := by
  obtain ⟨rest, here, _⟩ := nonzeroFrom_eq_cons read
  rw [here]
  rfl

theorem nonzeroFrom_of_pos (positive : ∀ d ∈ digits, 0 < d) : nonzeroFrom digits 0 = digits := by
  rw [nonzeroFrom_zero, List.filter_eq_self]
  intro d member
  exact decide_eq_true (positive d member).ne'

theorem getLast?_of_pos (positive : ∀ d ∈ digits, 0 < d) : digits.getLast? ≠ some 0 :=
  fun zero => Nat.lt_irrefl 0 (positive 0 (List.mem_of_getLast? zero))

theorem cyclic_nonzeroFrom_pos (filled : nonzeroFrom digits position ≠ []) (i : Nat) :
    0 < cyclic (nonzeroFrom digits position) i := by
  have member := cyclic_mem filled i
  simp only [nonzeroFrom, List.mem_filter, decide_eq_true_eq] at member
  exact Nat.pos_of_ne_zero member.2

end nonzeroFrom

namespace Cadence

theorem firstNonzero_drop {digits : List Nat} {position : Nat} (inside : position < digits.length)
    (last : digits.getLast? ≠ some 0) :
    ∃ count, (firstNonzero (digits.drop position)).2 = count + 1 ∧ position + count < digits.length ∧
      nonzeroFrom digits (position + count) = nonzeroFrom digits position ∧
      cyclic digits (position + count) = (firstNonzero (digits.drop position)).1 ∧
      cyclic digits (position + count) ≠ 0 := by
  rw [List.drop_eq_getElem_cons inside]
  have here := cyclic_eq_getElem inside
  cases digit : digits[position] with
  | succ d => exact ⟨0, rfl, inside, rfl, by rw [Nat.add_zero, here, digit]; rfl, by
      rw [Nat.add_zero, here, digit]; exact Nat.succ_ne_zero d⟩
  | zero =>
    have further : position + 1 < digits.length := by
      rcases Nat.lt_or_ge (position + 1) digits.length with further | ended
      · exact further
      · refine absurd ?_ last
        rw [List.getLast?_eq_getElem?, show digits.length - 1 = position by omega,
          List.getElem?_eq_getElem inside, digit]
    obtain ⟨count, counted, bound, same, found, read⟩ := firstNonzero_drop further last
    have shift : position + 1 + count = position + (count + 1) := by omega
    rw [shift] at bound same found read
    refine ⟨count + 1, by rw [firstNonzero, counted], bound, ?_, found, read⟩
    rw [same, nonzeroFrom_succ_of_zero (by rw [here, digit])]
termination_by digits.length - position

def nextPosition (digits : List Nat) (position : Nat) : Nat :=
  let after := position + (firstNonzero (digits.drop position)).2
  if digits.length ≤ after then 0 else after

theorem nextPosition_lt {digits : List Nat} (filled : digits ≠ []) (position : Nat) :
    nextPosition digits position < digits.length := by
  have length : 0 < digits.length := List.length_pos_of_ne_nil filled
  simp only [nextPosition]
  split <;> omega

theorem nonzeroFrom_nextPosition {digits : List Nat} {position : Nat} (inside : position < digits.length)
    (last : digits.getLast? ≠ some 0) :
    (firstNonzero (digits.drop position)).1 = cyclic (nonzeroFrom digits position) 0 ∧
      nonzeroFrom digits (nextPosition digits position) = (nonzeroFrom digits position).rotate 1 := by
  obtain ⟨count, counted, bound, same, found, read⟩ := firstNonzero_drop inside last
  have turned := nonzeroFrom_succ read
  rw [same] at turned
  constructor
  · rw [← found, ← same, cyclic_nonzeroFrom_zero read]
  · rw [nextPosition, counted]
    split
    next ended =>
      have whole : digits.length = position + count + 1 := by omega
      rw [← turned, ← whole, nonzeroFrom, nonzeroFrom, List.rotate_zero, List.rotate_length]
    next => exact turned

theorem nonzeroFrom_ne_nil {digits : List Nat} {position : Nat} (inside : position < digits.length)
    (last : digits.getLast? ≠ some 0) : nonzeroFrom digits position ≠ [] := by
  obtain ⟨count, _, _, same, _, read⟩ := firstNonzero_drop inside last
  obtain ⟨rest, here, _⟩ := nonzeroFrom_eq_cons read
  rw [← same, here]
  exact List.cons_ne_nil _ _

theorem slotFields_pos {digits : List Nat} {position : Nat} (inside : position < digits.length)
    (last : digits.getLast? ≠ some 0) (carry j : Nat) : 0 < slotFields digits position carry j := by
  have filled := nonzeroFrom_ne_nil inside last
  rw [slotFields]
  split
  · exact cyclic_nonzeroFrom_pos filled j
  · split
    · omega
    · exact cyclic_nonzeroFrom_pos filled (j - 1)

theorem slotFields_nextPosition {digits : List Nat} {position : Nat} (inside : position < digits.length)
    (last : digits.getLast? ≠ some 0) (j : Nat) :
    slotFields digits (nextPosition digits position) 0 j = slotFields digits position 0 (j + 1) := by
  simp only [slotFields, if_true]
  rw [(nonzeroFrom_nextPosition inside last).2, cyclic_rotate, Nat.add_comm]

theorem slotFields_carried {carry : Nat} (digits : List Nat) (position : Nat) (carried : carry ≠ 0) (j : Nat) :
    slotFields digits position 0 j = slotFields digits position carry (j + 1) := by
  simp only [slotFields, if_true, if_neg carried, if_neg (Nat.succ_ne_zero j), Nat.add_sub_cancel]

end Cadence

end InverseTelecine
