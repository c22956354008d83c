import InverseTelecine.Media.Picture
import InverseTelecine.Media.Time

namespace InverseTelecine

/-- Bits may be set that no known flag has; they are kept. -/
structure FlagSet where
  bits : UInt32
deriving DecidableEq, Repr

namespace FlagSet

def empty : FlagSet := ⟨0⟩

def keyframe : FlagSet := ⟨1⟩
def corrupt : FlagSet := ⟨2⟩
def interlaced : FlagSet := ⟨8⟩
def topFieldFirst : FlagSet := ⟨16⟩

def known : List (FlagSet × String) :=
  [(keyframe, "KEYFRAME"), (corrupt, "CORRUPT"), (interlaced, "INTERLACED"),
    (topFieldFirst, "TOP_FIELD_FIRST")]

def all : FlagSet := ⟨known.foldl (fun bits flag => bits ||| flag.1.bits) 0⟩

def contains (f g : FlagSet) : Bool := f.bits &&& g.bits == g.bits

def restrict (f : FlagSet) : FlagSet := ⟨f.bits &&& all.bits⟩

def ofBits? (bits : UInt32) : Option FlagSet :=
  if bits &&& all.bits = bits then some ⟨bits⟩ else none

def describe (f : FlagSet) : String :=
  let names := (known.filter fun flag => f.contains flag.1).map (·.2)
  let rest := f.bits.toNat - f.restrict.bits.toNat
  let hex := "0x" ++ String.ofList (Nat.toDigits 16 rest)
  let parts := if rest = 0 ∧ names ≠ [] then names else names ++ [hex]
  "FrameFlags(" ++ String.intercalate " | " parts ++ ")"

end FlagSet

structure Frame where
  picture : Picture
  pts : Timestamp
  dts : Timestamp
  duration : Duration
  flags : FlagSet
  order : Int
deriving Repr

namespace Frame

def blank (l : Layout) (tb : TimeBase) : Frame :=
  ⟨Picture.blank l, .undefined tb, .undefined tb, ⟨0, tb⟩, .empty, 0⟩

def ofPicture (p : Picture) : Frame :=
  ⟨p, .undefined .mpeg, .undefined .mpeg, .zero, .empty, 0⟩

def withPropertiesOf (f other : Frame) : Frame :=
  { other with
    picture := { f.picture with
      space := other.picture.space
      range := other.picture.range } }

def layout (f : Frame) : Layout := f.picture.layout

def describe (f : Frame) : String :=
  "Frame \x7b width: " ++ toString f.layout.width ++ ", height: " ++ toString f.layout.height ++
    ", format: " ++ f.layout.format.describe ++ ", pts: " ++ f.pts.describe ++
    ", flags: " ++ f.flags.describe ++ " \x7d"

theorem withPropertiesOf_layout (f other : Frame) : (f.withPropertiesOf other).layout = f.layout := rfl

theorem withPropertiesOf_planes (f other : Frame) :
    (f.withPropertiesOf other).picture.planes = f.picture.planes := rfl

end Frame

end InverseTelecine
