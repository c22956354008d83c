import InverseTelecine.CommandLine.Arguments
import InverseTelecine.CommandLine.Transcript
import InverseTelecine.Options.Json

namespace InverseTelecine.CommandLine

open Text

structure Files where
  input : Option (Except String Input)
  outputExists : Bool
  sameFile : Bool
  createFailure : Option String
  writeFailure : Option String

structure Elapsed where
  rounded : String
  exact : String

/-- The result of a run: the texts printed, each with a line break after it, and what was written, none
where no output was created. -/
structure Report where
  code : Nat
  stdout : List (Notice String)
  stderr : List String
  written : Option (List UInt8)
  /-- Printed after that on `stdout`; may name the time that the run took. -/
  closing : Option Elapsed → List String

def Report.plain (code : Nat) (stdout stderr : List String) : Report :=
  ⟨code, [], stderr, none, fun _ => stdout⟩

def options (a : Arguments) : Except (Stop Chain) Options :=
  match a.filter with
  | some filter =>
    (Options.parse filter).mapError (Stop.map fun e =>
      ("invalid filter string '" ++ filter ++ "'") :: e.chain)
  | none => do
    let first ← (FieldParity.parse a.first.toList).mapError fun e => .error e.chain
    let options : Options := ⟨first, a.pattern, a.start⟩
    let _ ← options.cadence.mapError (Stop.map FilterError.chain)
    return options

def stream (a : Arguments) : Except (Stop Chain) InputStream := do
  let format ← (PixelFormat.parse a.pixelFormat).mapError fun e =>
    .error ["unsupported pixel format '" ++ a.pixelFormat ++ "'", e.message]
  let rate ← (Rational.parse a.rate).mapError (Stop.map fun e =>
    ["invalid frame rate '" ++ a.rate ++ "'", e.message])
  if ¬ rate.isPositive then .error (.error ["frame rate must be positive, got " ++ rate.text])
  else if a.width = 0 ∨ a.height = 0 then .error (.error ["frame size must be non-zero"])
  else
    let timeBase ← (TimeBase.perFrame rate).mapError .fault
    return ⟨⟨a.width, a.height, format⟩, ⟨rate, timeBase⟩⟩

def jsonError (kind text : String) : String :=
  Json.writeRecord [("error", Json.quote kind), ("message", Json.quote text), ("type", "\"error\"")]

def indent (first rest text : String) : List String :=
  match (splitAll '\n' text.toList).map String.ofList with
  | [] => []
  | line :: lines => (first ++ line) :: lines.map (rest ++ ·)

def errorLines : Chain → List String
  | [] => []
  | text :: [] => indent "Error: " "" text
  | text :: [cause] => indent "Error: " "" text ++ ["", "Caused by:"] ++ indent "    " "    " cause
  | text :: causes =>
    indent "Error: " "" text ++ ["", "Caused by:"] ++
      causes.zipIdx.flatMap fun (cause, n) => indent ("    " ++ toString n ++ ": ") "       " cause

def failure (mode : Presentation) (chain : Chain) : Report :=
  match mode with
  | .json => .plain 1 [jsonError "detelecine_failed" (String.intercalate ": " chain)] []
  | _ => .plain 1 [] (errorLines chain)

def stopped (mode : Presentation) : Stop Chain → Report
  | .error chain => failure mode chain
  | .fault f => .plain 101 [] [f.message]

def settingLines (a : Arguments) (options : Options) (stream : InputStream) : List String :=
  ["", "Configuration:", "  Input:        " ++ a.input, "  Output:       " ++ a.output,
    "  Frame:        " ++ stream.layout.text, "  Rate:         " ++ stream.pace.rate.text,
    "  Filter:       " ++ options.text, ""]

def eventLines (mode : Presentation) (events : List (Notice Event)) : List (Notice String) :=
  let least := if mode = .verbose then Level.debug else Level.info
  (events.filter fun e => least.rank ≤ e.said.level.rank).map fun e => ⟨e.after, e.said.line⟩

def summaryLines (a : Arguments) (r : Restorer) (elapsed : Option Elapsed) : List String :=
  ["Detelecine complete!", "", "Statistics:", "  Frames in:    " ++ toString r.tally.accepted,
    "  Frames out:   " ++ toString r.tally.emitted,
    "  Output rate:  " ++ r.retiming.output.rate.text] ++
  (if a.mode = .verbose then
    ["  Skipped:      " ++ toString r.tally.skipped,
      "  Buffered:     " ++ toString r.tally.kept,
      "  Empty slots:  " ++ toString r.tally.dropped,
      "  Unpaired:     " ++ toString r.tally.unpaired,
      "  Time base:    " ++ r.retiming.output.base.text]
  else []) ++
  (elapsed.map fun time => "  Time:         " ++ time.rounded ++ "s").toList ++
  ["", "Output saved to: " ++ a.output]

def summaryJson (r : Restorer) (elapsed : Option Elapsed) : String :=
  Json.writeRecord ([("type", "\"complete\""), ("success", "true"),
    ("output_frame_rate", Json.quote r.retiming.output.rate.terms),
    ("output_time_base", Json.quote r.retiming.output.base.text), ("stats", r.tally.toJson)] ++
    (elapsed.map fun time => ("elapsed_seconds", time.exact)).toList)

def closingLines (a : Arguments) (r : Restorer) (elapsed : Option Elapsed) : List String :=
  match a.mode with
  | .json => [summaryJson r elapsed]
  | .quiet => [a.output]
  | _ => (Event.runFinished r.tally.accepted r.tally.emitted).line :: summaryLines a r elapsed

def whenTalkative {α : Type} (mode : Presentation) (lines : List α) : List α :=
  if mode = .normal ∨ mode = .verbose then lines else []

def refusal (mode : Presentation) (kind text : String) (hint : List String) : Report :=
  match mode with
  | .json => .plain 1 [jsonError kind text] []
  | .quiet => .plain 1 [] []
  | _ => .plain 1 [] (("Error: " ++ text) :: hint)

def runOn (memory : Memory) (a : Arguments) (opened : Except String Input) (files : Files) : Report :=
  match options a, stream a with
  | .error stop, _ => stopped a.mode stop
  | .ok _, .error stop => stopped a.mode stop
  | .ok options, .ok stream =>
    match opened, files.createFailure with
    | .error cause, _ => failure a.mode ["opening " ++ a.input, cause]
    | .ok _, some cause => failure a.mode ["creating " ++ a.output, cause]
    | .ok input, none =>
      let input := if files.sameFile then input.emptied else input
      let done := transcribe memory options stream input files.writeFailure
      let settings := (settingLines a options stream).map fun line => ⟨0, line⟩
      let stdout := whenTalkative a.mode (settings ++ eventLines a.mode done.events)
      let ending := match done.result with
        | .error stop => stopped a.mode stop
        | .ok restorer => ⟨0, [], [], none, closingLines a restorer⟩
      { ending with stdout, written := some done.written.toList }

def run (memory : Memory) (a : Arguments) (files : Files) : Report :=
  match files.input with
  | none => refusal a.mode "input_not_found" ("Input file not found: " ++ a.input) []
  | some opened =>
    if files.outputExists && !a.overwrite then
      refusal a.mode "output_exists" ("Output file already exists: " ++ a.output)
        ["       Use -y to overwrite"]
    else runOn memory a opened files

def versionLine : String := "detelecine 0.1.0"

def usageLine : String :=
  "Usage: detelecine [OPTIONS] --input <INPUT> --output <OUTPUT> --width <WIDTH> --height <HEIGHT>"

def Halt.report : Halt → Report
  | .usage => .plain 2 [] [usageLine]
  | .help => .plain 0 [usageLine] []
  | .version => .plain 0 [versionLine] []

end InverseTelecine.CommandLine
