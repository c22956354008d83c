import InverseTelecine.Media.Picture

namespace InverseTelecine

structure Donor where
  picture : Picture
  full : Bool
deriving DecidableEq, Repr

namespace Donor

def empty (p : Picture) : Donor := ⟨p, false⟩

def keep (d : Donor) (source : Picture) : Except Fault (Except MediaError Unit × Donor) :=
  match d.picture.paste source with
  | .error f => .error f
  | .ok (.error e, picture) => .ok (.error e, { d with picture })
  | .ok (.ok (), picture) => .ok (.ok (), ⟨picture, true⟩)

def free (d : Donor) : Donor := { d with full := false }

theorem keep_full {d e : Donor} {source : Picture} (h : d.keep source = .ok (.ok (), e)) : e.full = true := by
  rw [keep] at h
  split at h
  · cases h
  · cases h
  · cases h
    rfl

end Donor

end InverseTelecine
