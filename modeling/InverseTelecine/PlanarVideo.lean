import InverseTelecine.Media.Frame

namespace InverseTelecine

inductive Turn where
  | upTo (count : Nat)
  | interrupted
  | failed (text : String)
deriving DecidableEq, Repr

/-- Bytes still to come, and how the next reads go; those after the last turn hand out all that is
asked for. -/
structure Source where
  bytes : List UInt8
  turns : List Turn
deriving DecidableEq, Repr

namespace Source

def ofBytes (bytes : List UInt8) : Source := ⟨bytes, []⟩

/-- Reads until `wanted` bytes are there, the bytes end, or a read fails. Interruptions are passed
over. -/
def fill (wanted : Nat) (bytes : List UInt8) : List Turn → Except String (List UInt8) × Source
  | [] => (.ok (bytes.take wanted), ⟨bytes.drop wanted, []⟩)
  | turn :: turns =>
    if wanted = 0 then (.ok [], ⟨bytes, turn :: turns⟩)
    else match turn with
      | .interrupted => fill wanted bytes turns
      | .failed text => (.error text, ⟨bytes, turns⟩)
      | .upTo count =>
        let got := bytes.take (min count wanted)
        let rest := bytes.drop (min count wanted)
        if got = [] then (.ok [], ⟨rest, turns⟩)
        else
          let (more, source) := fill (wanted - got.length) rest turns
          (more.map (got ++ ·), source)

end Source

inductive ReadError where
  | source (frame : Nat) (text : String)
  | truncated (frame got size : Nat)
deriving DecidableEq, Repr

def ReadError.chain : ReadError → List String
  | source frame text => ["reading frame " ++ toString frame, text]
  | truncated frame got size =>
    ["truncated frame " ++ toString frame ++ ": got " ++ toString got ++ " of " ++ toString size ++ " bytes"]

namespace Plane

def readRows (p : Plane) (row : Nat) (bytes : List UInt8) : Nat → Plane × List UInt8
  | 0 => (p, bytes)
  | count + 1 =>
    let new := p.write (row * p.stride) (bytes.take p.extent.rowBytes).toArray
    new.readRows (row + 1) (bytes.drop p.extent.rowBytes) count

end Plane

def Picture.readPlanes : List Plane → List UInt8 → List Plane
  | [], _ => []
  | p :: planes, bytes =>
    let (new, rest) := p.readRows 0 bytes p.extent.rows
    new :: Picture.readPlanes planes rest

def Picture.ofUnpadded (l : Layout) (bytes : List UInt8) : Picture :=
  Picture.ofPlanes l (Picture.readPlanes (Picture.blank l).planes bytes)

structure FrameReader where
  source : Source
  layout : Layout
  base : TimeBase
  count : Nat
deriving DecidableEq, Repr

namespace FrameReader

def new (source : Source) (l : Layout) (tb : TimeBase) : FrameReader := ⟨source, l, tb, 0⟩

def next (r : FrameReader) : Except ReadError (Option Frame) × FrameReader :=
  let size := r.layout.size
  match Source.fill size r.source.bytes r.source.turns with
  | (.error text, source) => (.error (.source r.count text), { r with source })
  | (.ok bytes, source) =>
    if bytes = [] then (.ok none, { r with source })
    else if bytes.length < size then
      (.error (.truncated r.count bytes.length size), { r with source })
    else
      let frame := { Frame.blank r.layout r.base with
        picture := Picture.ofUnpadded r.layout bytes
        pts := .ofTicks (Signed64.truncate r.count) r.base }
      (.ok (some frame), { r with source, count := r.count + 1 })

/-- All frames up to the end of the bytes or the first failure; `fuel` bounds their number. -/
def framesUpTo : Nat → FrameReader → List Frame × Option ReadError × FrameReader
  | 0, r => ([], none, r)
  | fuel + 1, r =>
    match r.next with
    | (.error e, r) => ([], some e, r)
    | (.ok none, r) => ([], none, r)
    | (.ok (some frame), r) =>
      let (frames, failure, r) := framesUpTo fuel r
      (frame :: frames, failure, r)

def frames (r : FrameReader) : List Frame × Option ReadError × FrameReader :=
  framesUpTo (r.source.bytes.length + 1) r

end FrameReader

end InverseTelecine
