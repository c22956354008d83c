import InverseTelecine.Cadence
import InverseTelecine.Media.Time

namespace InverseTelecine

open Text

inductive Level where
  | trace | debug | info | warn
deriving DecidableEq, Repr

def Level.name : Level → String
  | trace => "TRACE"
  | debug => "DEBUG"
  | info => "INFO"
  | warn => "WARN"

def Level.rank : Level → Nat
  | trace => 0
  | debug => 1
  | info => 2
  | warn => 3

inductive Event where
  | cadenceChosen (cadence : Cadence)
  | rateDerived (input output : Rational)
  | timeBaseDerived (input output : TimeBase)
  | duplicateSkipped (skip : Nat)
  | donorKept
  | emptySlot (pattern : String)
  | unpairedDropped
  | cadenceStepped (produced skip : Nat) (held : Bool) (position : Nat)
  | frameEmitted (pts : Int) (index : Nat)
  | outputChosen (rate : Rational) (tb : TimeBase)
  | runFinished (accepted emitted : Nat)
deriving Repr

namespace Event

def level : Event → Level
  | cadenceChosen _ | runFinished .. => .info
  | rateDerived .. | timeBaseDerived .. | outputChosen .. => .debug
  | emptySlot _ | unpairedDropped => .warn
  | duplicateSkipped _ | donorKept | cadenceStepped .. | frameEmitted .. => .trace

def message : Event → String
  | cadenceChosen c =>
    "Detelecine pattern " ++ c.text ++ " removes up to " ++ toString c.foldBound ++
      " frames per frame, pts advance factor: " ++ toString c.ratio.num ++ "/" ++ toString c.ratio.den
  | rateDerived input output => "FPS: " ++ input.terms ++ " -> " ++ output.terms
  | timeBaseDerived input output => "TB: " ++ input.text ++ " -> " ++ output.text
  | duplicateSkipped _ => "skipping duplicate frame"
  | donorKept => "buffering frame as field donor"
  | emptySlot pattern => "pattern " ++ pattern ++ " has an empty slot, dropping input frame"
  | unpairedDropped => "dropping unpaired held field"
  | cadenceStepped .. => "cadence step"
  | frameEmitted .. => "emitting frame"
  | outputChosen rate tb => "output " ++ rate.text ++ " fps, time base " ++ tb.text
  | runFinished accepted emitted =>
    toString accepted ++ " frames in, " ++ toString emitted ++ " frames out"

def values : Event → List (String × String)
  | duplicateSkipped skip => [("skip", toString skip)]
  | cadenceStepped produced skip held position =>
    [("produced", toString produced), ("skip", toString skip), ("held", toString held),
      ("position", toString position)]
  | frameEmitted pts index => [("pts", decimalText pts), ("index", toString index)]
  | _ => []

def line (e : Event) : String :=
  String.intercalate " " (e.level.name :: e.message :: e.values.map fun (name, value) => name ++ "=" ++ value)

end Event

end InverseTelecine
