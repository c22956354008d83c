namespace InverseTelecine

inductive FieldParity where
  | top | bottom
deriving DecidableEq, Repr

namespace FieldParity

def firstRow : FieldParity → Nat
  | top => 0
  | bottom => 1

def other : FieldParity → FieldParity
  | top => bottom
  | bottom => top

def name : FieldParity → String
  | top => "top"
  | bottom => "bottom"

theorem other_other (p : FieldParity) : p.other.other = p := by
  cases p <;> rfl

theorem firstRow_other (p : FieldParity) : p.other.firstRow = 1 - p.firstRow := by
  cases p <;> rfl

end FieldParity

/-- First row and row count of a field in a plane of `rows` rows. -/
def fieldSpan (rows parity : Nat) : Nat × Nat :=
  if rows ≤ parity then (parity, 0) else (parity, (rows - parity + 1) / 2)

theorem fieldSpan_snd_sum (rows : Nat) : (fieldSpan rows 0).2 + (fieldSpan rows 1).2 = rows := by
  simp only [fieldSpan]
  split <;> split <;> simp only [] <;> omega

theorem fieldSpan_lt {rows parity i : Nat} (h : i < (fieldSpan rows parity).2) :
    (fieldSpan rows parity).1 + 2 * i < rows := by
  rw [fieldSpan] at h ⊢
  split at h
  · simp at h
  next inside =>
    rw [if_neg inside]
    simp only at h ⊢
    omega

end InverseTelecine
