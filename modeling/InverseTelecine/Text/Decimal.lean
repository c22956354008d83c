import InverseTelecine.Number.Signed64

namespace InverseTelecine.Text

open Signed64

def isDigit (c : Char) : Bool := '0' ≤ c && c ≤ '9'

def natural? (s : List Char) : Option Nat :=
  if s = [] ∨ ¬ s.all isDigit then none else some (Nat.ofDigitChars 10 s 0)

def integer? (s : List Char) : Option Int :=
  let value := match s with
    | '-' :: rest => (natural? rest).map fun (n : Nat) => -(n : Int)
    | '+' :: rest => (natural? rest).map Int.ofNat
    | _ => (natural? s).map Int.ofNat
  value.filter fun x => decide (Fits x)

def decimal (x : Int) : List Char :=
  if x < 0 then '-' :: Nat.toDigits 10 x.natAbs else Nat.toDigits 10 x.natAbs

def decimalText (x : Int) : String := String.ofList (decimal x)

theorem isDigit_eq (c : Char) : isDigit c = c.isDigit := rfl

theorem natural?_toDigits (n : Nat) : natural? (Nat.toDigits 10 n) = some n := by
  have digits : (Nat.toDigits 10 n).all isDigit = true := by
    rw [List.all_eq_true]
    intro c hc
    rw [isDigit_eq]
    exact Nat.isDigit_of_mem_toDigits (by decide) (by decide) hc
  rw [natural?, if_neg (by simp [Nat.toDigits_ne_nil, digits]), Nat.ofDigitChars_ten_toDigits]

theorem integer?_decimal {x : Int} (h : Fits x) : integer? (decimal x) = some x := by
  rw [decimal]
  split
  next negative =>
    have value : -((x.natAbs : Nat) : Int) = x := by omega
    simp only [integer?, natural?_toDigits, Option.map_some, value, Option.filter_some, h, decide_true,
      ↓reduceIte]
  next positive =>
    have value : Int.ofNat x.natAbs = x := by
      show ((x.natAbs : Nat) : Int) = x
      omega
    have head : ∀ c r, Nat.toDigits 10 x.natAbs = c :: r → c.isDigit = true := fun c r eq =>
      Nat.isDigit_of_mem_toDigits (by decide) (by decide) (eq ▸ List.mem_cons_self)
    rw [integer?]
    · simp only [natural?_toDigits, Option.map_some, value, Option.filter_some, h, decide_true, ↓reduceIte]
    · exact fun r eq => absurd (head _ _ eq) (by decide)
    · exact fun r eq => absurd (head _ _ eq) (by decide)

end InverseTelecine.Text
