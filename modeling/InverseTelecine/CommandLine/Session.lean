import InverseTelecine.CommandLine.Folder
import InverseTelecine.CommandLine.Run
import InverseTelecine.Text.Decoding

namespace InverseTelecine.CommandLine

namespace Folder

def openAt (f : Folder) : Place → Except String Input
  | .file name => .ok (.bytes (.ofBytes ((f.bytes? name).getD [])))
  | .fileOutside | .null | .stdout | .stderr => .ok (.bytes (.ofBytes []))
  | .zero | .full => .ok .zeros
  | .terminal => .error PathError.noDevice.message
  | .here | .root | .system | .devices | .processes | .process | .streams =>
    .ok (.bytes ⟨[], [.failed PathError.isFolder.message]⟩)

def survey (f : Folder) (a : Arguments) : Files :=
  let input := f.find a.input
  let created := f.create a.output
  { input := input.toOption.map f.openAt
    outputExists := (f.find a.output).toOption.isSome
    sameFile := input.toOption.isSome && input.toOption == created.toOption
    createFailure :=
      match created with
      | .error e => some e.message
      | .ok _ => none
    writeFailure := if created.toOption = some .full then some PathError.deviceFull.message else none }

def after (f : Folder) (a : Arguments) (report : Report) : Folder :=
  match report.written, f.create a.output with
  | some bytes, .ok (.file name) => f.write name bytes
  | _, _ => f

end Folder

/-- What a command leaves: its exit code, what is on its streams, and the folder. -/
structure Outcome where
  code : Nat
  stdout : String
  stderr : String
  folder : Folder
deriving DecidableEq, Repr

def inLines (texts : List String) : String := String.join (texts.map (· ++ "\n"))

/-- An output that is one of the streams stands there among the texts. -/
def Report.outcome (report : Report) (place : Option Place) (folder : Folder) (elapsed : Option Elapsed) :
    Outcome :=
  let written := report.written.getD []
  let shown := fun stream bytes => if place = some stream then Text.Decoding.decode bytes else ""
  let early := (pieces 0 written report.stdout).map fun (bytes, text) => shown .stdout bytes ++ text
  { code := report.code
    stdout := String.join early ++ inLines (report.closing elapsed)
    stderr := shown .stderr written ++ inLines report.stderr
    folder }

def runIn (memory : Memory) (f : Folder) (arguments : List String) (elapsed : Option Elapsed) : Outcome :=
  match Arguments.parse arguments with
  | .error halt => halt.report.outcome none f elapsed
  | .ok a =>
    let report := run memory a (f.survey a)
    report.outcome (f.create a.output).toOption (f.after a report) elapsed

end InverseTelecine.CommandLine
