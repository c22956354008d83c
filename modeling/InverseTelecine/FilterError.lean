import InverseTelecine.Fault
import InverseTelecine.Media.PixelFormat

namespace InverseTelecine

inductive FilterError where
  | noPattern
  | notADigit (character : Char) (position : Nat)
  | startBeyondCycle (start cycleFields : Nat)
  | startOutOfRange (start greatest : Nat)
  | badOption (text : String)
  | badFrameRate (text : String)
  | sizeDiffers (expectedWidth expectedHeight actualWidth actualHeight : Nat)
  | formatDiffers (expected actual : PixelFormat)
  | noBuffer (text : String)
  | sink (text : String)
  | media (cause : MediaError)
deriving DecidableEq, Repr

namespace FilterError

def message : FilterError → String
  | noPattern => "No pattern provided"
  | notADigit c n =>
    "Pattern includes non-numeric character '" ++ c.toString ++ "' at position " ++ toString n
  | startBeyondCycle start sum =>
    "start_frame " ++ toString start ++ " is too big for a pattern of " ++ toString sum ++ " fields"
  | startOutOfRange start greatest =>
    "start_frame " ++ toString start ++ " out of range [0, " ++ toString greatest ++ "]"
  | badOption text => "Invalid option: " ++ text
  | badFrameRate text => "Invalid frame rate: " ++ text
  | sizeDiffers ew eh aw ah =>
    "Frame dimensions mismatch: expected " ++ toString ew ++ "x" ++ toString eh ++ ", got " ++
      toString aw ++ "x" ++ toString ah
  | formatDiffers expected actual =>
    "Pixel format mismatch: expected " ++ expected.name ++ ", got " ++ actual.name
  | noBuffer text => "Buffer allocation failed: " ++ text
  | sink text => "Downstream sink error: " ++ text
  | media cause => "Core error: " ++ cause.message

def chain (e : FilterError) : List String :=
  match e with
  | media cause => [e.message, cause.message]
  | _ => [e.message]

def isSetup : FilterError → Bool
  | noPattern | notADigit .. | startBeyondCycle .. | startOutOfRange ..
  | badOption _ | badFrameRate _ => true
  | _ => false

def isShortage : FilterError → Bool
  | noBuffer _ => true
  | media cause => cause.isShortage
  | _ => false

end FilterError

/-- Formats are compared first, sizes second. -/
def requireLayout (expected actual : Layout) : Except FilterError Unit :=
  if expected.format ≠ actual.format then .error (.formatDiffers expected.format actual.format)
  else if expected.width ≠ actual.width ∨ expected.height ≠ actual.height then
    .error (.sizeDiffers expected.width expected.height actual.width actual.height)
  else .ok ()

theorem requireLayout_eq_ok_iff (expected actual : Layout) :
    requireLayout expected actual = .ok () ↔ expected = actual := by
  obtain ⟨w, h, f⟩ := expected
  obtain ⟨w', h', f'⟩ := actual
  simp only [requireLayout, Layout.mk.injEq]
  split
  · simp_all
  · split
    · simp only [reduceCtorEq, false_iff]
      omega
    · simp only [true_iff]
      simp_all

end InverseTelecine
