import InverseTelecine.FilterError
import InverseTelecine.Number.Rational
import InverseTelecine.Text.Decimal

namespace InverseTelecine

structure Cadence where
  digits : List Nat
  position : Nat
  carry : Nat
  startPosition : Nat
  startCarry : Nat
  ratio : Rational
  start : Nat
deriving DecidableEq, Repr

namespace Cadence

def digitValue (c : Char) : Nat := c.toNat - '0'.toNat

def readDigits (index : Nat) : List Char → Except FilterError (List Nat)
  | [] => .ok []
  | c :: rest =>
    if Text.isDigit c then (readDigits (index + 1) rest).map (digitValue c :: ·)
    else .error (.notADigit c index)

def reach (target : Nat) : List Nat → Nat → Nat → Option (Nat × Nat)
  | [], _, _ => none
  | d :: rest, count, total =>
    if target ≤ total + d then some (count + 1, total + d - target)
    else reach target rest (count + 1) (total + d)

/-- Position and carry of a stream whose first frame is `start` frames into the pattern. The
fields before it are fewer than those of two cycles. -/
def phaseAt (digits : List Nat) (start : Nat) : Nat × Nat :=
  if start = 0 then (0, 0)
  else match reach (2 * start) (digits ++ digits) 0 0 with
    | some (count, carry) => (count % digits.length, carry)
    | none => (0, 0)

def fieldCount (digits : List Nat) : Nat := digits.foldr (· + ·) 0

def countLimit : Nat := 4294967296

def seek (digits : List Nat) (start : Nat) : Except Fault (Nat × Nat) :=
  let (position, carry) := phaseAt digits start
  if countLimit ≤ 2 * start then .error .multiplyOverflow
  else if countLimit ≤ 2 * start + carry then .error .addOverflow
  else .ok (position, carry)

def parse (pattern : String) (start : Nat) : Except (Stop FilterError) Cadence :=
  if pattern.toList = [] then .error (.error .noPattern)
  else match readDigits 0 pattern.toList with
    | .error e => .error (.error e)
    | .ok digits =>
      if countLimit ≤ fieldCount digits then .error (.fault .addOverflow)
      else if fieldCount digits ≤ start then .error (.error (.startBeyondCycle start (fieldCount digits)))
      else match seek digits start with
        | .error f => .error (.fault f)
        | .ok (position, carry) =>
          .ok ⟨digits, position, carry, position, carry, ⟨fieldCount digits, 2 * digits.length⟩, start⟩

def firstNonzero : List Nat → Nat × Nat
  | [] => (0, 0)
  | 0 :: rest => ((firstNonzero rest).1, (firstNonzero rest).2 + 1)
  | (d + 1) :: _ => (d + 1, 1)

/-- The fields of the next slot. The search for a nonzero digit ends with the pattern, so zeros at
its end make one empty slot per cycle. -/
def nextSlot (c : Cadence) : Nat × Cadence :=
  let (len, count) := firstNonzero (c.digits.drop c.position)
  let position := c.position + count
  (len, { c with position := if c.digits.length ≤ position then 0 else position })

def takeCarry (c : Cadence) : Nat × Cadence := (c.carry, { c with carry := 0 })

def takeSlot (c : Cadence) : Nat × Cadence :=
  match c.takeCarry with
  | (0, c) => c.nextSlot
  | (carry + 1, c) => (carry + 1, c)

def rewind (c : Cadence) : Cadence := { c with position := c.startPosition, carry := c.startCarry }

def cycleFields (c : Cadence) : Nat := c.ratio.num.toNat

def foldBound (c : Cadence) : Nat := (c.digits.foldl max 0 + 1) / 2

def text (c : Cadence) : String := String.join (c.digits.map toString)

def describe (c : Cadence) : String :=
  "Cadence \x7b fields: [" ++ String.intercalate ", " (c.digits.map toString) ++ "], position: " ++
    toString c.position ++ ", init_len: " ++ toString c.carry ++ ", initial_position: " ++
    toString c.startPosition ++ ", initial_init_len: " ++ toString c.startCarry ++ ", ratio: Rational(" ++
    toString c.ratio.num ++ "/" ++ toString c.ratio.den ++ "), start_frame: " ++ toString c.start ++
    " \x7d"

theorem rewind_rewind (c : Cadence) : c.rewind.rewind = c.rewind := rfl

@[simp] theorem nextSlot_digits (c : Cadence) : c.nextSlot.2.digits = c.digits := rfl

@[simp] theorem takeCarry_digits (c : Cadence) : c.takeCarry.2.digits = c.digits := rfl

theorem rewind_nextSlot (c : Cadence) : c.nextSlot.2.rewind = c.rewind := rfl

theorem rewind_takeCarry (c : Cadence) : c.takeCarry.2.rewind = c.rewind := rfl

end Cadence

end InverseTelecine
