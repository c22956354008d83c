import InverseTelecine.Number.Signed64

namespace InverseTelecine

open Signed64

structure Rational where
  num : Int
  den : Int
deriving DecidableEq, Repr, Inhabited

namespace Rational

def zero : Rational := ⟨0, 1⟩

def withSign (num den : Int) : Rational := if den < 0 then ⟨-num, -den⟩ else ⟨num, den⟩

/-- The sign is kept in the numerator, and both terms in 64 bits. -/
def signed (num den : Int) : Except Fault Rational :=
  if den < 0 then do return ⟨← negate num, ← negate den⟩ else .ok ⟨num, den⟩

def ofTerms? (num den : Int) : Except Fault (Option Rational) :=
  if den = 0 then .ok none else (signed num den).map some

def ofTerms (num den : Int) : Except Fault Rational :=
  if den = 0 then .error .zeroDenominator else signed num den

def isPositive (a : Rational) : Bool := 0 < a.num

def lowest (a : Rational) : Rational :=
  if a.num = 0 then zero else ⟨a.num / a.num.gcd a.den, a.den / a.num.gcd a.den⟩

def reduce (a : Rational) : Rational := a.lowest

def inverse (a : Rational) : Except Fault Rational :=
  if a.num = 0 then .error .reciprocalOfZero else signed a.den a.num

/-- Terms too wide for 64 bits, brought to lowest terms and then cut to their low 64 bits. -/
def ofExact (num den : Int) : Rational :=
  let exact := (withSign num den).lowest
  ⟨truncate exact.num, truncate exact.den⟩

def mul (a b : Rational) : Rational := ofExact (a.num * b.num) (a.den * b.den)

instance : Mul Rational := ⟨mul⟩

def scale (a : Rational) (value : Int) : Int :=
  let product := value * a.num
  let half := a.den.tdiv 2
  truncate ((if 0 ≤ product then product + half else product - half).tdiv a.den)

def cmp (a b : Rational) : Ordering := compare (a.num * b.den) (b.num * a.den)

def toFloat (a : Rational) : Float := Float.ofInt a.num / Float.ofInt a.den

theorem mul_def (a b : Rational) : a * b = ofExact (a.num * b.num) (a.den * b.den) := rfl

theorem withSign_den_pos {num den : Int} (h : den ≠ 0) : 0 < (withSign num den).den := by
  rw [withSign]
  split
  · dsimp only
    omega
  · dsimp only
    omega

def Overflows (num den : Int) : Prop := den < 0 ∧ (num = least ∨ den = least)

theorem signed_of_overflows {num den : Int} (h : Overflows num den) : signed num den = .error .negateOverflow := by
  obtain ⟨negative, lost⟩ := h
  rw [signed, if_pos negative]
  by_cases first : num = least
  · simp only [negate, if_pos first, bind, Except.bind]
  · simp only [negate, if_neg first, if_pos (lost.resolve_left first), bind, Except.bind]

theorem signed_of_not_overflows {num den : Int} (h : ¬ Overflows num den) : signed num den = .ok (withSign num den) := by
  rw [signed, withSign]
  split
  next negative =>
    have kept : num ≠ least ∧ den ≠ least := not_or.mp fun lost => h ⟨negative, lost⟩
    simp only [negate_of_ne kept.1, negate_of_ne kept.2, bind, Except.bind, pure, Except.pure]
  next => rfl

theorem signed_eq_ok_iff (num den : Int) (a : Rational) :
    signed num den = .ok a ↔ ¬ Overflows num den ∧ a = withSign num den := by
  by_cases h : Overflows num den
  · simp [signed_of_overflows h, h]
  · simp [signed_of_not_overflows h, h, eq_comm]

theorem signed_eq_error_iff (num den : Int) (f : Fault) :
    signed num den = .error f ↔ Overflows num den ∧ f = .negateOverflow := by
  by_cases h : Overflows num den
  · simp [signed_of_overflows h, h, eq_comm]
  · simp [signed_of_not_overflows h, h]

theorem ofTerms_eq_error_iff (num den : Int) (f : Fault) :
    ofTerms num den = .error f ↔
      den = 0 ∧ f = .zeroDenominator ∨ Overflows num den ∧ f = .negateOverflow := by
  rw [ofTerms]
  split
  next zero => simp [zero, Overflows, eq_comm]
  next nonzero => simp [nonzero, signed_eq_error_iff]

theorem inverse_eq_error_iff (a : Rational) (f : Fault) :
    a.inverse = .error f ↔
      a.num = 0 ∧ f = .reciprocalOfZero ∨ Overflows a.den a.num ∧ f = .negateOverflow := by
  rw [inverse]
  split
  next zero => simp [zero, Overflows, eq_comm]
  next nonzero => simp [nonzero, signed_eq_error_iff]

end Rational

end InverseTelecine
