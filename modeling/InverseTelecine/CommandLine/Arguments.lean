import InverseTelecine.Options
import InverseTelecine.Text.Decimal

namespace InverseTelecine.CommandLine

open Text

inductive Key where
  | input | output | width | height | pixelFormat | rate | first | pattern | start | filter
  | overwrite | withoutProgress | verbose | quiet | json | help | version
deriving DecidableEq, Repr

namespace Key

def all : List Key :=
  [input, output, width, height, pixelFormat, rate, first, pattern, start, filter, overwrite,
    withoutProgress, verbose, quiet, json, help, version]

def long : Key → String
  | input => "input"
  | output => "output"
  | width => "width"
  | height => "height"
  | pixelFormat => "pix-fmt"
  | rate => "rate"
  | first => "first-field"
  | pattern => "pattern"
  | start => "start-frame"
  | filter => "filter"
  | overwrite => "overwrite"
  | withoutProgress => "no-progress"
  | verbose => "verbose"
  | quiet => "quiet"
  | json => "json"
  | help => "help"
  | version => "version"

def short? : Key → Option Char
  | input => some 'i'
  | output => some 'o'
  | rate => some 'r'
  | pattern => some 'p'
  | start => some 's'
  | filter => some 'F'
  | overwrite => some 'y'
  | verbose => some 'v'
  | quiet => some 'q'
  | help => some 'h'
  | version => some 'V'
  | _ => none

def takesValue : Key → Bool
  | input | output | width | height | pixelFormat | rate | first | pattern | start | filter => true
  | _ => false

def ofLong? (name : List Char) : Option Key := all.find? fun k => k.long.toList = name

def ofShort? (c : Char) : Option Key := all.find? fun k => k.short? = some c

end Key

inductive Halt where
  | usage
  | help
  | version
deriving DecidableEq, Repr

def word? (s : List Char) : Option Nat :=
  (integer? s).bind fun n => if 0 ≤ n ∧ n ≤ 4294967295 then some n.toNat else none

def isValid (k : Key) (value : List Char) : Bool :=
  match k with
  | .width | .height | .start => (word? value).isSome
  | .input | .output => value ≠ []
  | _ => true

abbrev Given := List (Key × List Char)

def give (given : Given) (k : Key) (value : List Char) : Except Halt Given :=
  match k with
  | .help => .error .help
  | .version => .error .version
  | _ =>
    if given.any fun g => g.1 = k then .error .usage
    else if isValid k value then .ok ((k, value) :: given)
    else .error .usage

def scanShort (given : Given) : List Char → Except Halt (Given × Option Key)
  | [] => .ok (given, none)
  | c :: rest =>
    match Key.ofShort? c with
    | none => .error .usage
    | some k =>
      if k.takesValue then
        match rest with
        | [] => .ok (given, some k)
        | '=' :: value => do return (← give given k value, none)
        | value => do return (← give given k value, none)
      else do scanShort (← give given k []) rest

def scanLong (given : Given) (s : List Char) : Except Halt (Given × Option Key) :=
  let (name, value) := match splitFirst? (· == '=') s with
    | some (name, value) => (name, some value)
    | none => (s, none)
  match Key.ofLong? name with
  | none => .error .usage
  | some k =>
    match k.takesValue, value with
    | true, some value => do return (← give given k value, none)
    | true, none => .ok (given, some k)
    | false, some _ => .error .usage
    | false, none => do return (← give given k [], none)

/-- A pending option takes the next argument, unless that begins another option. -/
def scan (given : Given) (pending : Option Key) : List (List Char) → Except Halt Given
  | [] => if pending.isSome then .error .usage else .ok given
  | argument :: rest =>
    let option? := match argument with
      | '-' :: '-' :: [] => none
      | '-' :: '-' :: name => some (scanLong given name)
      | '-' :: c :: letters => some (scanShort given (c :: letters))
      | _ => none
    match option?, pending with
    | some _, some _ => .error .usage
    | some scanned, none => do
      let (given, pending) ← scanned
      scan given pending rest
    | none, some k =>
      if argument = ['-', '-'] then .error .usage
      else do scan (← give given k argument) none rest
    | none, none => if argument = ['-', '-'] ∧ rest = [] then .ok given else .error .usage

inductive Presentation where
  | normal | json | quiet | verbose
deriving DecidableEq, Repr

structure Arguments where
  input : String
  output : String
  width : Nat
  height : Nat
  pixelFormat : String
  rate : String
  first : String
  pattern : String
  start : Nat
  filter : Option String
  overwrite : Bool
  mode : Presentation
deriving DecidableEq, Repr

def Given.value? (given : Given) (k : Key) : Option (List Char) := (given.find? fun g => g.1 = k).map (·.2)

def Given.text (given : Given) (k : Key) (absent : String) : String :=
  ((given.value? k).map String.ofList).getD absent

def Given.mode? (given : Given) : Option Presentation :=
  match (given.value? .verbose).isSome, (given.value? .quiet).isSome, (given.value? .json).isSome with
  | false, false, false => some .normal
  | true, false, false => some .verbose
  | false, true, false => some .quiet
  | false, false, true => some .json
  | _, _, _ => none

def Given.arguments? (given : Given) : Option Arguments := do
  let mode ← given.mode?
  let input ← given.value? .input
  let output ← given.value? .output
  let width ← (given.value? .width).bind word?
  let height ← (given.value? .height).bind word?
  return {
    input := String.ofList input
    output := String.ofList output
    width
    height
    pixelFormat := given.text .pixelFormat "yuv420p"
    rate := given.text .rate "30000/1001"
    first := given.text .first "top"
    pattern := given.text .pattern "23"
    start := ((given.value? .start).bind word?).getD 0
    filter := (given.value? .filter).map String.ofList
    overwrite := (given.value? .overwrite).isSome
    mode }

def Arguments.parse (arguments : List String) : Except Halt Arguments := do
  let given ← scan [] none (arguments.map String.toList)
  match given.arguments? with
  | some a => return a
  | none => .error .usage

end InverseTelecine.CommandLine
