import InverseTelecine.Media.Frame
import InverseTelecine.Media.Pool
import InverseTelecine.Retiming.Clock

namespace InverseTelecine

structure Supply (σ : Type) where
  layout : σ → Layout
  take : σ → Except MediaError Picture × σ

structure Endpoints (σ : Type) extends Supply σ where
  push : σ → Frame → Except FilterError Unit × σ

structure Emission (σ : Type) where
  result : Except (Stop FilterError) Unit
  clock : Clock
  state : σ
  events : List Event

def Clock.stamp (c : Clock) (picture : Picture) (input : Frame) : Frame :=
  { (Frame.ofPicture picture).withPropertiesOf input with
    pts := c.nextStamp
    duration := ⟨input.duration.ticks, c.base⟩ }

/-- Copies `slot` into a buffer from the supply, stamps it and hands it on. The clock counts every
frame that was handed on, accepted or not. -/
def emit {σ : Type} (ends : Endpoints σ) (slot : Picture) (input : Frame) (clock : Clock) (s : σ) :
    Emission σ :=
  match ends.take s with
  | (.error e, s) => ⟨.error (.error (.noBuffer e.message)), clock, s, []⟩
  | (.ok buffer, s) =>
    match (buffer.paste slot).picture with
    | .error stop => ⟨.error (stop.map .media), clock, s, []⟩
    | .ok picture =>
      let frame := clock.stamp picture input
      let events := [.frameEmitted frame.pts.rawTicks clock.emitted]
      let (answer, s) := ends.push s frame
      ⟨answer.mapError .error, clock.tick, s, events⟩

def Pool.supply (memory : Memory) : Supply Pool := ⟨Pool.layout, fun p => p.take memory⟩

def Supply.collecting {σ : Type} (supply : Supply σ) : Endpoints (σ × List Frame) where
  layout s := supply.layout s.1
  take s := ((supply.take s.1).1, (supply.take s.1).2, s.2)
  push s frame := (.ok (), s.1, s.2 ++ [frame])

end InverseTelecine
