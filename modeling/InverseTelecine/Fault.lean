namespace InverseTelecine

/-- Preconditions whose breach ends a computation. -/
inductive Fault where
  | zeroDenominator
  | reciprocalOfZero
  | bytesOutOfRange
  | slotOutOfRange
  | addOverflow
  | multiplyOverflow
  | negateOverflow
deriving DecidableEq, Repr

namespace Fault

def message : Fault → String
  | zeroDenominator => "Denominator cannot be zero"
  | reciprocalOfZero => "Cannot take reciprocal of zero"
  | bytesOutOfRange => "row bytes out of range"
  | slotOutOfRange => "output slot out of range"
  | addOverflow => "attempt to add with overflow"
  | multiplyOverflow => "attempt to multiply with overflow"
  | negateOverflow => "attempt to negate with overflow"

end Fault

inductive Stop (ε : Type) where
  | error (e : ε)
  | fault (f : Fault)
deriving DecidableEq, Repr

namespace Stop

def map {ε δ : Type} (f : ε → δ) : Stop ε → Stop δ
  | .error e => .error (f e)
  | .fault g => .fault g

theorem map_fault {ε δ : Type} (f : ε → δ) (g : Fault) : (Stop.fault g).map f = .fault g := rfl

end Stop

end InverseTelecine
