import InverseTelecine.Emission
import InverseTelecine.Restorer.Step

namespace InverseTelecine.Restorer

/-- What a call answered, and everything it changed. -/
structure Outcome (σ α : Type) where
  result : Except (Stop FilterError) α
  restorer : Restorer
  state : σ
  events : List Event

def emitSlots {σ : Type} (ends : Endpoints σ) (input : Frame) :
    List Picture → Restorer → σ → Outcome σ Unit
  | [], r, s => ⟨.ok (), r, s, []⟩
  | slot :: slots, r, s =>
    let emission := emit ends slot input r.clock s
    let r := { r with
      clock := emission.clock
      tally := { r.tally with emitted := emission.clock.emitted } }
    match emission.result with
    | .error stop => ⟨.error stop, r, emission.state, emission.events⟩
    | .ok () =>
      let rest := emitSlots ends input slots r emission.state
      { rest with events := emission.events ++ rest.events }

def accept (r : Restorer) (input : Frame) : Restorer :=
  { r with
    tally := { r.tally with accepted := r.tally.accepted + 1 }
    clock := r.clock.note input.pts }

/-- Takes one input frame and emits what it completes: none, one or two frames. -/
def feed {σ : Type} (ends : Endpoints σ) (r : Restorer) (input : Frame) (s : σ) : Outcome σ Nat :=
  match requireLayout r.stream.layout input.layout with
  | .error error => ⟨.error (.error error), r, s, []⟩
  | .ok () =>
    match step input.picture (r.accept input) with
    | .error stop r => ⟨.error stop, r, s, []⟩
    | .ok (produced, events) r =>
      if r.slots.length < produced then ⟨.error (.fault .slotOutOfRange), r, s, events⟩
      else
        let emitted := emitSlots ends input (r.slots.take produced) r s
        { emitted with
          result := emitted.result.map fun _ => produced
          events := events ++ emitted.events }

def feedCollecting {σ : Type} (supply : Supply σ) (r : Restorer) (input : Frame) (s : σ) :
    Outcome σ (List Frame) :=
  let done := feed supply.collecting r input (s, [])
  ⟨done.result.map fun _ => done.state.2, done.restorer, done.state.1, done.events⟩

def feedAll {σ : Type} (ends : Endpoints σ) : Restorer → List Frame → σ → Outcome σ Unit
  | r, [], s => ⟨.ok (), r, s, []⟩
  | r, frame :: frames, s =>
    let done := feed ends r frame s
    match done.result with
    | .error stop => ⟨.error stop, done.restorer, done.state, done.events⟩
    | .ok _ =>
      let rest := feedAll ends done.restorer frames done.state
      { rest with events := done.events ++ rest.events }

/-- Back to the state after the start. Pictures keep their rows. -/
def rewind (r : Restorer) : Restorer :=
  { r with
    cadence := r.cadence.rewind
    donor := r.donor.free
    skip := 0
    clock := r.clock.rewind
    tally := .zero }

def describe (r : Restorer) : String :=
  "Detelecine \x7b config: " ++ r.options.describe ++ ", cadence: " ++ r.cadence.describe ++
    ", skip_fields: " ++ toString r.skip ++ ", held: " ++ toString r.donor.full ++
    ", stats: DetelecineStats \x7b frames_in: " ++ toString r.tally.accepted ++
    ", frames_out: " ++ toString r.tally.emitted ++ ", frames_skipped: " ++ toString r.tally.skipped ++
    ", frames_buffered: " ++ toString r.tally.kept ++
    ", cadence_drops: " ++ toString r.tally.dropped ++
    ", unpaired_fields: " ++ toString r.tally.unpaired ++ " \x7d \x7d"

end InverseTelecine.Restorer
