import InverseTelecine.FilterError
import InverseTelecine.Field.Parity
import InverseTelecine.Media.Picture

namespace InverseTelecine

namespace Plane

def takeField (dst src : Plane) (parity : Nat) : Except Fault Plane :=
  let (first, count) := fieldSpan dst.extent.rows parity
  if count = 0 then .ok dst
  else if dst.bytes.size < first * dst.stride ∨ src.bytes.size < first * src.stride then
    .error .bytesOutOfRange
  else (copyBlock dst.bytes (dst.fieldTrack first) src.bytes (src.fieldTrack first)
    dst.extent.rowBytes count).map fun bytes => { dst with bytes }

def weave (dst current held : Plane) (parity : Nat) : Except Fault Plane := do
  (← dst.takeField current parity).takeField held (1 - parity)

end Plane

namespace Picture

def weavePlanes (parity : Nat) : List Plane → List Plane → List Plane → Except Fault (List Plane)
  | dst :: dsts, current :: currents, held :: helds => do
    let plane ← dst.weave current held parity
    return plane :: (← weavePlanes parity dsts currents helds)
  | dsts, _, _ => .ok dsts

/-- Rows of the first field from `current`, the others from `held`. -/
def weave (dst current held : Picture) (first : FieldParity) : Write FilterError :=
  match requireLayout dst.layout current.layout, requireLayout dst.layout held.layout with
  | .error e, _ => .ok (.error e, dst)
  | .ok _, .error e => .ok (.error e, dst)
  | .ok _, .ok _ =>
    match weavePlanes first.firstRow dst.planes current.planes held.planes with
    | .error f => .error f
    | .ok planes => .ok (.ok (), { dst with planes })

def replaceBy (dst src : Picture) : Write FilterError :=
  match requireLayout dst.layout src.layout with
  | .error e => .ok (.error e, dst)
  | .ok _ =>
    match dst.paste src with
    | .error f => .error f
    | .ok (answer, picture) => .ok (answer.mapError .media, picture)

end Picture

end InverseTelecine
