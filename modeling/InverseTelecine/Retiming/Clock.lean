import InverseTelecine.Retiming

namespace InverseTelecine

structure Clock where
  retiming : Retiming
  start : Option Int
  emitted : Nat
deriving DecidableEq, Repr

namespace Clock

def new (t : Retiming) : Clock := ⟨t, none, 0⟩

/-- The first defined timestamp starts the clock; later ones change nothing. -/
def note (c : Clock) (pts : Timestamp) : Clock :=
  match c.start with
  | none => { c with start := pts.ticks }
  | some _ => c

def base (c : Clock) : TimeBase := c.retiming.output.base

def nextStamp (c : Clock) : Timestamp :=
  .ofTicks (Signed64.saturate (c.start.getD 0 + c.retiming.offset c.emitted)) c.base

def tick (c : Clock) : Clock := { c with emitted := c.emitted + 1 }

def rewind (c : Clock) : Clock := { c with start := none, emitted := 0 }

theorem note_of_start {c : Clock} {s : Int} (h : c.start = some s) (pts : Timestamp) :
    c.note pts = c := by
  rw [note, h]

end Clock

end InverseTelecine
