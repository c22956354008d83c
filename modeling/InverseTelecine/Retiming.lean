import InverseTelecine.Event

namespace InverseTelecine

/-- Frames per second, and what their timestamps count in. -/
structure Pace where
  rate : Rational
  base : TimeBase
deriving DecidableEq, Repr

structure Retiming where
  input : Pace
  output : Pace
  frameTicks : Rational
deriving DecidableEq, Repr

structure Reported (α : Type) where
  events : List Event
  value : α

namespace Retiming

def requirePositive (input : Pace) (ratio : Rational) : Except FilterError Unit :=
  if ¬ input.rate.isPositive then
    .error (.badFrameRate ("the input needs a constant frame rate; current rate of " ++ input.rate.terms ++
      " is invalid"))
  else if ¬ input.base.tick.isPositive then
    .error (.badFrameRate ("invalid input time base " ++ input.base.text))
  else if ¬ ratio.isPositive then
    .error (.badOption ("cadence ratio " ++ ratio.text ++ " must be positive"))
  else .ok ()

def derive (input : Pace) (ratio : Rational) : Reported (Except (Stop FilterError) Retiming) :=
  match requirePositive input ratio, ratio.inverse with
  | .error e, _ => ⟨[], .error (.error e)⟩
  | .ok _, .error f => ⟨[], .error (.fault f)⟩
  | .ok _, .ok inverse =>
    let output : Pace := ⟨input.rate * inverse, ⟨input.base.tick * ratio⟩⟩
    let events := [.rateDerived input.rate output.rate, .timeBaseDerived input.base output.base]
    match (output.rate * output.base.tick).inverse with
    | .error f => ⟨events, .error (.fault f)⟩
    | .ok frameTicks => ⟨events, .ok ⟨input, output, frameTicks⟩⟩

/-- Ticks from the first emitted frame to the one at `index`, a 64-bit count read as signed. -/
def offset (t : Retiming) (index : Nat) : Int := t.frameTicks.scale (Signed64.truncate index)

end Retiming

def restoredRate (rate : Rational) (pattern : String) : Except (Stop FilterError) Rational :=
  match Cadence.parse pattern 0 with
  | .error stop => .error stop
  | .ok cadence =>
    match cadence.ratio.inverse with
    | .error f => .error (.fault f)
    | .ok inverse => .ok (rate * inverse)

end InverseTelecine
