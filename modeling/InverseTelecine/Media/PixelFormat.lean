import InverseTelecine.Media.Error
import InverseTelecine.Text.Blank

namespace InverseTelecine

inductive PixelFormat where
  | yuv420p | yuv422p | yuv440p | yuv444p
  | yuv420p10le | yuv422p10le | yuv444p10le
  | nv12 | nv21
  | rgb24 | bgr24 | rgba | bgra
  | gray8 | gray16
deriving DecidableEq, Repr, Inhabited

structure Extent where
  rowBytes : Nat
  rows : Nat
deriving DecidableEq, Repr

structure Layout where
  width : Nat
  height : Nat
  format : PixelFormat
deriving DecidableEq, Repr

namespace PixelFormat

def all : List PixelFormat :=
  [yuv420p, yuv422p, yuv440p, yuv444p, yuv420p10le, yuv422p10le, yuv444p10le, nv12, nv21,
    rgb24, bgr24, rgba, bgra, gray8, gray16]

def name : PixelFormat → String
  | yuv420p => "yuv420p"
  | yuv422p => "yuv422p"
  | yuv440p => "yuv440p"
  | yuv444p => "yuv444p"
  | yuv420p10le => "yuv420p10le"
  | yuv422p10le => "yuv422p10le"
  | yuv444p10le => "yuv444p10le"
  | nv12 => "nv12"
  | nv21 => "nv21"
  | rgb24 => "rgb24"
  | bgr24 => "bgr24"
  | rgba => "rgba"
  | bgra => "bgra"
  | gray8 => "gray8"
  | gray16 => "gray16"

def describe (f : PixelFormat) : String := f.name.capitalize

def planes : PixelFormat → Nat
  | yuv420p | yuv422p | yuv440p | yuv444p | yuv420p10le | yuv422p10le | yuv444p10le => 3
  | nv12 | nv21 => 2
  | rgb24 | bgr24 | rgba | bgra | gray8 | gray16 => 1

def isTenBit : PixelFormat → Bool
  | yuv420p10le | yuv422p10le | yuv444p10le => true
  | _ => false

/-- Binary logarithms of the chroma subsampling, horizontal and vertical. -/
def subsampling : PixelFormat → Nat × Nat
  | yuv420p | yuv420p10le | nv12 | nv21 => (1, 1)
  | yuv422p | yuv422p10le => (1, 0)
  | yuv440p => (0, 1)
  | _ => (0, 0)

def sampleBytes : PixelFormat → Nat × Nat
  | yuv420p10le | yuv422p10le | yuv444p10le => (2, 2)
  | nv12 | nv21 => (1, 2)
  | rgb24 | bgr24 => (3, 3)
  | rgba | bgra => (4, 4)
  | gray16 => (2, 2)
  | _ => (1, 1)

def shiftUp (n shift : Nat) : Nat := (n + Nat.pow 2 shift - 1) / Nat.pow 2 shift

def extent (f : PixelFormat) (width height plane : Nat) : Extent :=
  if plane = 0 then ⟨width * f.sampleBytes.1, height⟩
  else ⟨shiftUp width f.subsampling.1 * f.sampleBytes.2, shiftUp height f.subsampling.2⟩

def extent? (f : PixelFormat) (width height plane : Nat) : Option Extent :=
  if plane < f.planes then some (f.extent width height plane) else none

def read? (s : List Char) : Option PixelFormat :=
  let lower := String.ofList ((Text.trim s).map Char.toLower)
  let wanted := if lower = "gray" then "gray8" else lower
  all.find? fun f => f.name = wanted

def parse (s : String) : Except MediaError PixelFormat :=
  match read? s.toList with
  | some f => .ok f
  | none => .error (.unsupported ("pixel format '" ++ s ++ "'"))

theorem mem_all (f : PixelFormat) : f ∈ all := by
  cases f <;> decide

theorem planes_pos (f : PixelFormat) : 0 < f.planes := by
  cases f <;> decide

end PixelFormat

namespace Layout

def extents (l : Layout) : List Extent := (List.range l.format.planes).map (l.format.extent l.width l.height)

def size (l : Layout) : Nat := l.extents.foldl (fun bytes e => bytes + e.rowBytes * e.rows) 0

def dimensions (l : Layout) : String := toString l.width ++ "x" ++ toString l.height

def text (l : Layout) : String := l.dimensions ++ " " ++ l.format.name

end Layout

end InverseTelecine
