import InverseTelecine.Cadence
import InverseTelecine.Field.Parity
import InverseTelecine.Text.Blank
import InverseTelecine.Text.Split

namespace InverseTelecine

open Text

namespace FieldParity

def spellings : FieldParity → List String
  | top => ["top", "t", "0"]
  | bottom => ["bottom", "b", "1"]

def parse (s : List Char) : Except FilterError FieldParity :=
  let lower := String.ofList ((trim s).map Char.toLower)
  if lower ∈ top.spellings then .ok top
  else if lower ∈ bottom.spellings then .ok bottom
  else .error (.badOption ("unknown first_field '" ++ lower ++ "', expected top or bottom"))

end FieldParity

structure Options where
  first : FieldParity
  pattern : String
  start : Nat
deriving DecidableEq, Repr

namespace Options

def greatestStart : Nat := 13

def default : Options := ⟨.top, "23", 0⟩

instance : Inhabited Options := ⟨default⟩

def ownName : List Char := "detelecine".toList

def positional : List (List Char) := ["first_field".toList, "pattern".toList, "start_frame".toList]

def cadence (c : Options) : Except (Stop FilterError) Cadence :=
  if greatestStart < c.start then
    .error (.error (.startOutOfRange c.start greatestStart))
  else Cadence.parse c.pattern c.start

def clampWord (n : Int) : Nat := (max 0 (min n 4294967295)).toNat

def readStart (value : List Char) : Except FilterError Nat :=
  match integer? (trim value) with
  | none => .error (.badOption ("start_frame '" ++ String.ofList value ++ "' is not an integer"))
  | some n =>
    if 0 ≤ n ∧ n ≤ greatestStart then .ok n.toNat
    else .error (.startOutOfRange (clampWord n) greatestStart)

def assign (c : Options) (key value : List Char) : Except FilterError Options :=
  if key = "first_field".toList then (FieldParity.parse value).map fun p => { c with first := p }
  else if key = "pattern".toList then .ok { c with pattern := String.ofList value }
  else if key = "start_frame".toList then (readStart value).map fun n => { c with start := n }
  else .error (.badOption ("unknown option '" ++ String.ofList key ++ "'"))

/-- Takes the parts in turn; `names` are those still open to position, or none once a name was given. -/
def setParts (c : Options) : Option (List (List Char)) → List (List Char) → Except FilterError Options
  | _, [] => .ok c
  | names, part :: parts =>
    match splitFirst? (· == '=') part with
    | some (key, value) => do setParts (← c.assign (trim key) value) none parts
    | none =>
      match names with
      | none =>
        .error (.badOption ("positional value '" ++ String.ofList part ++ "' after named option"))
      | some [] =>
        .error (.badOption ("too many positional values at '" ++ String.ofList part ++ "'"))
      | some (key :: names) => do setParts (← c.assign key part) (some names) parts

def dropOwnName (s : List Char) : List Char :=
  match splitFirst? (· == '=') s with
  | some (name, rest) => if trim name = ownName then rest else s
  | none => if s = ownName then [] else s

def parts (s : List Char) : List (List Char) :=
  (splitAll ':' (dropOwnName (trim s))).filter fun part => trim part ≠ []

def read (s : String) : Except FilterError Options := setParts default (some positional) (parts s.toList)

def parse (s : String) : Except (Stop FilterError) Options :=
  match read s with
  | .error e => .error (.error e)
  | .ok c =>
    match c.cadence with
    | .error stop => .error stop
    | .ok _ => .ok c

def text (c : Options) : String :=
  "first_field=" ++ c.first.name ++ ":pattern=" ++ c.pattern ++ ":start_frame=" ++ toString c.start

def describe (c : Options) : String :=
  "DetelecineConfig \x7b first_field: " ++ c.first.name.capitalize ++ ", pattern: \"" ++ c.pattern ++
    "\", start_frame: " ++ toString c.start ++ " \x7d"

theorem parse_eq_ok {s : String} {c : Options} (h : parse s = .ok c) :
    ∃ k, read s = .ok c ∧ c.cadence = .ok k := by
  unfold parse at h
  split at h
  · cases h
  next d said =>
    split at h
    · cases h
    next k valid =>
      cases h
      exact ⟨k, said, valid⟩

theorem cadence_of_parse {s : String} {c : Options} (h : parse s = .ok c) : ∃ k, c.cadence = .ok k := by
  obtain ⟨k, _, valid⟩ := parse_eq_ok h
  exact ⟨k, valid⟩

end Options

end InverseTelecine
