import InverseTelecine.Number.Rational.Text

namespace InverseTelecine

open Signed64 Text

structure TimeBase where
  tick : Rational
deriving DecidableEq, Repr, Inhabited

namespace TimeBase

def mpeg : TimeBase := ⟨⟨1, 90000⟩⟩

def milliseconds : TimeBase := ⟨⟨1, 1000⟩⟩

def perFrame (rate : Rational) : Except Fault TimeBase := rate.inverse.map fun a => ⟨a.reduce⟩

def seconds (tb : TimeBase) (ticks : Int) : Float := Float.ofInt ticks * tb.tick.toFloat

def text (tb : TimeBase) : String := tb.tick.terms

def describe (tb : TimeBase) : String := "TimeBase(" ++ tb.tick.describe ++ ")"

end TimeBase

structure Timestamp where
  ticks : Option Int
  base : TimeBase
deriving Repr

namespace Timestamp

/-- The least 64-bit number is reserved for undefined timestamps. -/
def reserved : Int := least

def ofTicks (ticks : Int) (tb : TimeBase) : Timestamp :=
  ⟨if ticks = reserved then none else some ticks, tb⟩

def undefined (tb : TimeBase) : Timestamp := ⟨none, tb⟩

def rawTicks (t : Timestamp) : Int := t.ticks.getD reserved

def isDefined (t : Timestamp) : Bool := t.ticks.isSome

def seconds? (t : Timestamp) : Option Float := t.ticks.map t.base.seconds

def cmp (a b : Timestamp) : Ordering :=
  match a.ticks, b.ticks with
  | none, none => .eq
  | none, some _ => .lt
  | some _, none => .gt
  | some x, some y =>
    compare (x * a.base.tick.num * b.base.tick.den)
      (y * b.base.tick.num * a.base.tick.den)

instance : BEq Timestamp := ⟨fun a b => a.cmp b == .eq⟩

def describe (t : Timestamp) : String :=
  "Timestamp \x7b value: " ++ decimalText t.rawTicks ++ ", time_base: " ++ t.base.describe ++ " \x7d"

theorem ofTicks_of_ne {ticks : Int} (h : ticks ≠ reserved) (tb : TimeBase) :
    (ofTicks ticks tb).ticks = some ticks := by
  simp [ofTicks, h]

end Timestamp

structure Duration where
  ticks : Int
  base : TimeBase
deriving DecidableEq, Repr

def Duration.zero : Duration := ⟨0, TimeBase.mpeg⟩

end InverseTelecine
