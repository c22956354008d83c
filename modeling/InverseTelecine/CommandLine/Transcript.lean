import InverseTelecine.CommandLine.Disk
import InverseTelecine.CommandLine.Notice
import InverseTelecine.PlanarVideo
import InverseTelecine.Restorer.Start

namespace InverseTelecine.CommandLine

abbrev Chain := List String

inductive Input where
  | bytes (source : Source)
  | zeros
deriving DecidableEq, Repr

/-- The input after a file of its name was created; only bytes are lost by that. -/
def Input.emptied : Input → Input
  | .bytes _ => .bytes (.ofBytes [])
  | .zeros => .zeros

/-- How the filter ran on the input: its final state or what stopped it, what was written, and the events
on the way. -/
structure Transcript where
  result : Except (Stop Chain) Restorer
  written : Array UInt8
  events : List (Notice Event)

/-- Zeros are read until the output fails. So many frames are enough for that, since a picture takes six
frames at most; an output that does not fail would be written for ever, and is left there. -/
def patience (size : Nat) : Nat := 8 * (bufferSize / size + 2)

def zeroFrame (stream : InputStream) (index : Nat) : Frame :=
  { Frame.blank stream.layout stream.pace.base with pts := .ofTicks index stream.pace.base }

def Input.frames (stream : InputStream) : Input → List Frame × Option ReadError
  | .bytes source =>
    let (frames, failure, _) := (FrameReader.new source stream.layout stream.pace.base).frames
    (frames, failure)
  | .zeros => ((List.range (patience stream.layout.size)).map (zeroFrame stream), none)

def transcribe (memory : Memory) (options : Options) (stream : InputStream) (input : Input)
    (failure : Option String) : Transcript :=
  let opening := Restorer.start (Disk.supply memory) options stream (Disk.blank stream.layout failure)
  match opening.result with
  | .error stop => ⟨.error (stop.map FilterError.chain), #[], noticesOf 0 [] opening.events⟩
  | .ok restorer =>
    let chosen := .outputChosen restorer.retiming.output.rate restorer.retiming.output.base
    let (frames, failure) := input.frames stream
    let run := Restorer.feedAll (Disk.endpoints memory) restorer frames opening.state
    let events := noticesOf 0 run.state.sent.toList (opening.events ++ chosen :: run.events)
    let stopped := fun stop => ⟨.error stop, run.state.written, events⟩
    match run.result, failure, run.state.flushFailure with
    | .error stop, _, _ =>
      let frame := toString (run.restorer.tally.accepted - 1)
      stopped (stop.map fun e => ("processing frame " ++ frame) :: e.chain)
    | .ok _, some e, _ => stopped (.error e.chain)
    | .ok _, none, some text => stopped (.error ["flushing output", text])
    | .ok _, none, none => ⟨.ok run.restorer, run.state.written, events⟩

end InverseTelecine.CommandLine
