import InverseTelecine.Restorer.Step
import InverseTelecine.Text.Record

namespace InverseTelecine

open Text

def firstNamed? {α : Type} (name : α → String) (all : List α) (json : Json) : Option α :=
  json.variant?.bind fun s => all.find? fun a => name a = s

def FieldParity.ofJson? : Json → Option FieldParity := firstNamed? FieldParity.name [.top, .bottom]

def PixelFormat.ofJson? : Json → Option PixelFormat := firstNamed? PixelFormat.name PixelFormat.all

def ColorSpace.ofJson? : Json → Option ColorSpace := firstNamed? ColorSpace.name ColorSpace.all

def ColorRange.ofJson? : Json → Option ColorRange := firstNamed? ColorRange.name ColorRange.all

namespace Options

def fieldNames : List String := ["first_field", "pattern", "start_frame"]

def ofJson? (json : Json) : Option Options :=
  match json.fields? fieldNames with
  | some [first, pattern, start] => do
    return ⟨← Json.field? FieldParity.ofJson? default.first first,
      ← Json.field? Json.string? default.pattern pattern,
      ← Json.field? (Json.natural? 4294967295) default.start start⟩
  | _ => none

def toJson (c : Options) : String :=
  Json.writeRecord [("first_field", Json.quote c.first.name), ("pattern", Json.quote c.pattern),
    ("start_frame", toString c.start)]

end Options

namespace Tally

def fieldNames : List String :=
  ["frames_in", "frames_out", "frames_skipped", "frames_buffered", "cadence_drops", "unpaired_fields"]

def counters (s : Tally) : List Nat :=
  [s.accepted, s.emitted, s.skipped, s.kept, s.dropped, s.unpaired]

def ofJson? (json : Json) : Option Tally := do
  match ← (← json.fields? fieldNames).mapM (Json.field? (Json.natural? 18446744073709551615) none) with
  | [accepted, emitted, skipped, kept, dropped, unpaired] =>
    return ⟨accepted, emitted, skipped, kept, dropped, unpaired⟩
  | _ => none

def toJson (s : Tally) : String := Json.writeRecord (fieldNames.zip (s.counters.map toString))

end Tally

end InverseTelecine
