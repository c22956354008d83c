import InverseTelecine.CommandLine.Session

namespace InverseTelecine.CommandLine

def failureText : IO.Error → String
  | .alreadyExists _ code details | .otherError code details | .resourceBusy code details
  | .resourceVanished code details | .unsupportedOperation code details | .hardwareFault code details
  | .unsatisfiedConstraints code details | .illegalOperation code details
  | .protocolError code details | .timeExpired code details | .interrupted _ code details
  | .noFileOrDirectory _ code details | .invalidArgument _ code details
  | .permissionDenied _ code details | .resourceExhausted _ code details
  | .inappropriateType _ code details | .noSuchThing _ code details =>
    details ++ " (os error " ++ toString code ++ ")"
  | e => toString e

def opens (path : String) : IO Bool := do
  try
    let _ ← IO.FS.Handle.mk path .read
    return true
  catch _ => return false

def fileExists (path : String) : IO Bool := do
  try
    let _ ← IO.FS.realPath path
    return true
  catch _ => opens path

def isSameFile (path other : String) : IO Bool := do
  try return (← IO.FS.realPath path) == (← IO.FS.realPath other)
  catch _ => return false

def endlessDevices : List String := ["/dev/zero", "/dev/full", "/dev/random", "/dev/urandom"]

def isEndless (path : String) : IO Bool := do
  try return toString (← IO.FS.realPath path) ∈ endlessDevices
  catch _ => return false

def readInput (path : String) : IO (Except String Input) := do
  try
    let _ ← IO.FS.Handle.mk path .read
  catch e => return .error (failureText e)
  if ← isEndless path then return .ok .zeros
  try return .ok (.bytes (.ofBytes (← IO.FS.readBinFile path).toList))
  catch e => return .ok (.bytes ⟨[], [.failed (failureText e)]⟩)

def lookAt (a : Arguments) : IO Files := do
  if ← fileExists a.input then
    return ⟨some (← readInput a.input), ← fileExists a.output, ← isSameFile a.input a.output, none, none⟩
  else return ⟨none, false, false, none, none⟩

/-- No more than 64 GiB are tried for one plane. -/
def machine : Memory := .upTo 68719476736

def createOutput (path : String) : IO (Except String IO.FS.Handle) := do
  try return .ok (← IO.FS.Handle.mk path .write)
  catch e => return .error (failureText e)

def writeAll (out : IO.FS.Handle) (bytes : List UInt8) : IO (Option String) := do
  try
    out.write ⟨bytes.toArray⟩
    out.flush
    return none
  catch e => return some (failureText e)

def roundedSeconds (milliseconds : Nat) : String :=
  let hundredths := (milliseconds + 5) / 10
  let fraction := hundredths % 100
  toString (hundredths / 100) ++ "." ++ (if fraction < 10 then "0" else "") ++ toString fraction

def exactSeconds (milliseconds : Nat) : String :=
  let padded := ((toString (1000 + milliseconds % 1000)).toList.drop 1).reverse.dropWhile (· == '0')
  let fraction := if padded.isEmpty then "0" else String.ofList padded.reverse
  toString (milliseconds / 1000) ++ "." ++ fraction

def Elapsed.ofMilliseconds (n : Nat) : Elapsed := ⟨roundedSeconds n, exactSeconds n⟩

def printLines (out : IO.FS.Stream) (lines : List String) : IO Unit := do
  out.putStr (inLines lines)
  out.flush

/-- Prints the texts and writes the bytes that come between them. If bytes cannot be written or the output
not created, the report is that of a run which could not do so. The number is that of the texts printed. -/
def carryOut (a : Arguments) : IO (Report × Nat) := do
  let files ← lookAt a
  let report := run machine a files
  match report.written with
  | none => return (report, 0)
  | some written =>
    match ← createOutput a.output with
    | .error cause => return (run machine a { files with createFailure := some cause }, 0)
    | .ok out =>
      let stdout ← IO.getStdout
      let mut printed := 0
      for (bytes, text) in pieces 0 written report.stdout do
        if let some cause ← writeAll out bytes then
          return (run machine a { files with writeFailure := some cause }, printed)
        stdout.putStr text
        stdout.flush
        printed := printed + 1
      return (report, printed)

end InverseTelecine.CommandLine

open InverseTelecine.CommandLine in
def main (arguments : List String) : IO UInt32 := do
  let begun ← IO.monoMsNow
  let (report, printed) ← match Arguments.parse arguments with
    | .error halt => pure (halt.report, 0)
    | .ok a => carryOut a
  let elapsed := (← IO.monoMsNow) - begun
  let late := (report.stdout.drop printed).map Notice.said
  printLines (← IO.getStdout) (late ++ report.closing (some (.ofMilliseconds elapsed)))
  printLines (← IO.getStderr) report.stderr
  return report.code.toUInt32
