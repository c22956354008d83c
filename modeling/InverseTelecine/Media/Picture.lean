import InverseTelecine.Media.PixelFormat
import InverseTelecine.Media.Rows

namespace InverseTelecine

inductive ColorSpace where
  | bt601 | bt709 | bt2020 | srgb
deriving DecidableEq, Repr

inductive ColorRange where
  | limited | full
deriving DecidableEq, Repr

namespace ColorSpace

def all : List ColorSpace := [bt601, bt709, bt2020, srgb]

def name : ColorSpace → String
  | bt601 => "Bt601"
  | bt709 => "Bt709"
  | bt2020 => "Bt2020"
  | srgb => "Srgb"

end ColorSpace

namespace ColorRange

def all : List ColorRange := [limited, full]

def name : ColorRange → String
  | limited => "Limited"
  | full => "Full"

end ColorRange

/-- Which sizes memory holds, in bytes. -/
structure Memory where
  holds : Nat → Bool

def Memory.upTo (greatest : Nat) : Memory := ⟨fun size => size ≤ greatest⟩

structure Plane where
  bytes : Array UInt8
  stride : Nat
  extent : Extent
deriving DecidableEq, Repr

namespace Plane

def alignment : Nat := 32

def paddedWidth (rowBytes : Nat) : Nat := (rowBytes + (alignment - 1)) / alignment * alignment

def paddedSize (e : Extent) : Nat := paddedWidth e.rowBytes * e.rows

def blank (e : Extent) : Plane := ⟨Array.replicate (paddedSize e) 0, paddedWidth e.rowBytes, e⟩

/-- Sizes that no address can count, that no array can have, and that memory does not hold are refused. -/
def make (memory : Memory) (index : Nat) (e : Extent) : Except MediaError Plane :=
  let size := paddedSize e
  let refuse := fun (cause : String) => Except.error (.exhausted
    (toString size ++ " bytes for plane " ++ toString index ++ ": memory allocation failed because " ++ cause))
  if 18446744073709551616 ≤ size then .error (.exhausted "plane size overflows usize")
  else if 9223372036854775808 ≤ size then
    refuse "the computed capacity exceeded the collection's maximum"
  else if ¬ memory.holds size then refuse "the memory allocator returned an error"
  else .ok (blank e)

def track (p : Plane) : Track := ⟨0, p.stride⟩

def fieldTrack (p : Plane) (first : Nat) : Track := ⟨first * p.stride, p.stride * 2⟩

def row? (p : Plane) (row : Nat) : Option (Array UInt8) :=
  let start := row * p.stride
  if row < p.extent.rows ∧ start + p.extent.rowBytes ≤ p.bytes.size then
    some (p.bytes.extract start (start + p.extent.rowBytes))
  else none

def rows (p : Plane) : List (Array UInt8) := (List.range p.extent.rows).filterMap p.row?

def writeRow? (p : Plane) (row : Nat) (bytes : Array UInt8) : Option Plane :=
  (p.row? row).map fun old =>
    { p with bytes := overwrite p.bytes (row * p.stride) (bytes.take old.size) }

def write (p : Plane) (start : Nat) (bytes : Array UInt8) : Plane :=
  { p with bytes := overwrite p.bytes start bytes }

def fill (p : Plane) (value : UInt8) : Plane :=
  { p with bytes := Array.replicate p.bytes.size value }

def paste (dst src : Plane) : Except Fault Plane :=
  (copyBlock dst.bytes dst.track src.bytes src.track dst.extent.rowBytes dst.extent.rows).map
    fun bytes => { dst with bytes }

theorem paddedWidth_ge (rowBytes : Nat) : rowBytes ≤ paddedWidth rowBytes := by
  rw [paddedWidth, alignment]
  omega

theorem paddedWidth_lt (rowBytes : Nat) : paddedWidth rowBytes < rowBytes + alignment := by
  rw [paddedWidth, alignment]
  omega

end Plane

structure Picture where
  layout : Layout
  space : ColorSpace
  range : ColorRange
  planes : List Plane
deriving DecidableEq, Repr

namespace Picture

/-- A write into a picture: what it answers, and the picture after it. A fault leaves neither. -/
abbrev Write (ε : Type) := Except Fault (Except ε Unit × Picture)

def Write.picture {ε : Type} : Write ε → Except (Stop ε) Picture
  | .error f => .error (.fault f)
  | .ok (.error e, _) => .error (.error e)
  | .ok (.ok (), picture) => .ok picture

def ofPlanes (l : Layout) (planes : List Plane) : Picture := ⟨l, .bt601, .limited, planes⟩

def blank (l : Layout) : Picture := ofPlanes l (l.extents.map Plane.blank)

def makePlanes (memory : Memory) : Nat → List Extent → Except MediaError (List Plane)
  | _, [] => .ok []
  | index, e :: rest => do
    let plane ← Plane.make memory index e
    return plane :: (← makePlanes memory (index + 1) rest)

def make (memory : Memory) (l : Layout) : Except MediaError Picture := (makePlanes memory 0 l.extents).map (ofPlanes l)

def stride (p : Picture) (plane : Nat) : Nat := (p.planes[plane]?.map Plane.stride).getD 0

def extent? (p : Picture) (plane : Nat) : Option Extent := p.planes[plane]?.map Plane.extent

def row? (p : Picture) (plane row : Nat) : Option (Array UInt8) := p.planes[plane]?.bind (·.row? row)

def visible (p : Picture) : List (List (Array UInt8)) := p.planes.map Plane.rows

def writeRow? (p : Picture) (plane row : Nat) (bytes : Array UInt8) : Option Picture := do
  let old ← p.planes[plane]?
  let new ← old.writeRow? row bytes
  return { p with planes := p.planes.set plane new }

def writePlane? (p : Picture) (plane start : Nat) (bytes : Array UInt8) : Option Picture :=
  p.planes[plane]?.map fun old => { p with planes := p.planes.set plane (old.write start bytes) }

def fill (p : Picture) (value : UInt8) : Picture := { p with planes := p.planes.map (·.fill value) }

def pastePlanes : List Plane → List Plane → Except Fault (List Plane)
  | dst :: dsts, src :: srcs => do
    let plane ← dst.paste src
    return plane :: (← pastePlanes dsts srcs)
  | dsts, _ => .ok dsts

def paste (dst src : Picture) : Write MediaError :=
  if dst.layout ≠ src.layout then
    .ok (.error (.badParameter ("cannot copy " ++ src.layout.text ++ " into " ++ dst.layout.text)), dst)
  else match pastePlanes dst.planes src.planes with
    | .error f => .error f
    | .ok planes => .ok (.ok (), { dst with planes })

def unpadded (p : Picture) : List UInt8 := p.planes.flatMap fun plane => plane.rows.flatMap Array.toList

def describe (p : Picture) : String :=
  "FrameBuffer \x7b width: " ++ toString p.layout.width ++ ", height: " ++ toString p.layout.height ++
    ", format: " ++ p.layout.format.describe ++ ", planes: " ++ toString p.planes.length ++ " \x7d"

theorem paste_layout {dst src p : Picture} {answer : Except MediaError Unit} (h : dst.paste src = .ok (answer, p)) :
    p.layout = dst.layout := by
  rw [paste] at h
  split at h
  · cases h
    rfl
  · split at h
    · cases h
    · cases h
      rfl

end Picture

end InverseTelecine
