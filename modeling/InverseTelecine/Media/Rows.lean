import InverseTelecine.Fault

namespace InverseTelecine

structure Track where
  first : Nat
  stride : Nat
deriving DecidableEq, Repr

def Track.next (t : Track) : Track := { t with first := t.first + t.stride }

def overwrite (dst : Array UInt8) (start : Nat) (bytes : Array UInt8) : Array UInt8 :=
  bytes.size.fold (fun i _ acc => acc.setIfInBounds (start + i) (bytes.getD i 0)) dst

def copySpan (dst : Array UInt8) (target : Nat) (src : Array UInt8) (origin count : Nat) :
    Except Fault (Array UInt8) :=
  if target + count ≤ dst.size ∧ origin + count ≤ src.size then
    .ok (overwrite dst target (src.extract origin (origin + count)))
  else .error .bytesOutOfRange

def copyRows (dst : Array UInt8) (target : Track) (src : Array UInt8) (origin : Track) (rowBytes : Nat) :
    Nat → Except Fault (Array UInt8)
  | 0 => .ok dst
  | rows + 1 =>
    match copySpan dst target.first src origin.first rowBytes with
    | .error f => .error f
    | .ok done => copyRows done target.next src origin.next rowBytes rows

/-- Rows without gaps on both sides are copied as one span, rows that all lie in one place once. -/
def copyBlock (dst : Array UInt8) (target : Track) (src : Array UInt8) (origin : Track)
    (rowBytes rows : Nat) : Except Fault (Array UInt8) :=
  if rowBytes = target.stride ∧ rowBytes = origin.stride then
    copySpan dst target.first src origin.first (rowBytes * rows)
  else if target.stride = 0 ∧ origin.stride = 0 then
    copyRows dst target src origin rowBytes (min rows 1)
  else copyRows dst target src origin rowBytes rows

theorem size_overwrite_fold (dst : Array UInt8) (start : Nat) (f : Nat → UInt8) (n : Nat) :
    (n.fold (fun k _ (acc : Array UInt8) => acc.setIfInBounds (start + k) (f k)) dst).size = dst.size := by
  induction n with
  | zero => rw [Nat.fold_zero]
  | succ n ih => rw [Nat.fold_succ, Array.size_setIfInBounds, ih]

theorem getElem?_overwrite_fold (dst : Array UInt8) (start : Nat) (f : Nat → UInt8) (n i : Nat) :
    (n.fold (fun k _ (acc : Array UInt8) => acc.setIfInBounds (start + k) (f k)) dst)[i]? =
      if start ≤ i ∧ i < start + n ∧ i < dst.size then some (f (i - start)) else dst[i]? := by
  induction n with
  | zero => rw [Nat.fold_zero, if_neg (by omega)]
  | succ n ih =>
    rw [Nat.fold_succ, Array.getElem?_setIfInBounds, ih, size_overwrite_fold]
    by_cases here : start + n = i
    · subst here
      by_cases room : start + n < dst.size
      · simp [room]
      · simp [room]
    · rw [if_neg here]
      by_cases inside : start ≤ i ∧ i < start + n ∧ i < dst.size
      · rw [if_pos inside, if_pos (by omega)]
      · rw [if_neg inside, if_neg (by omega)]

@[simp] theorem size_overwrite (dst : Array UInt8) (start : Nat) (bytes : Array UInt8) :
    (overwrite dst start bytes).size = dst.size :=
  size_overwrite_fold dst start (fun k => bytes.getD k 0) bytes.size

theorem getElem?_overwrite_inside {dst bytes : Array UInt8} {start i : Nat}
    (fits : start + bytes.size ≤ dst.size) (low : start ≤ i) (high : i < start + bytes.size) :
    (overwrite dst start bytes)[i]? = bytes[i - start]? := by
  rw [overwrite, getElem?_overwrite_fold, if_pos (by omega), Array.getD_eq_getD_getElem?,
    Array.getElem?_eq_getElem (by omega), Option.getD_some]

theorem getElem?_overwrite_outside {dst bytes : Array UInt8} {start i : Nat}
    (out : i < start ∨ start + bytes.size ≤ i) : (overwrite dst start bytes)[i]? = dst[i]? := by
  rw [overwrite, getElem?_overwrite_fold, if_neg (by omega)]

theorem copySpan_eq_error_iff (dst : Array UInt8) (target : Nat) (src : Array UInt8) (origin count : Nat)
    (f : Fault) :
    copySpan dst target src origin count = .error f ↔
      (dst.size < target + count ∨ src.size < origin + count) ∧ f = .bytesOutOfRange := by
  rw [copySpan]
  split
  · simp only [reduceCtorEq, false_iff, not_and]
    omega
  · simp only [Except.error.injEq, eq_comm (a := Fault.bytesOutOfRange), iff_and_self]
    omega

theorem overwrite_overwrite (dst : Array UInt8) (start : Nat) (bytes : Array UInt8) :
    overwrite (overwrite dst start bytes) start bytes = overwrite dst start bytes := by
  apply Array.ext_getElem?
  intro i
  by_cases inside : start ≤ i ∧ i < start + bytes.size ∧ i < dst.size
  · simp only [overwrite, getElem?_overwrite_fold, size_overwrite_fold, if_pos inside]
  · simp only [overwrite, getElem?_overwrite_fold, size_overwrite_fold, if_neg inside]

theorem copySpan_copySpan {dst done : Array UInt8} {target : Nat} {src : Array UInt8} {origin count : Nat}
    (h : copySpan dst target src origin count = .ok done) :
    copySpan done target src origin count = .ok done := by
  rw [copySpan] at h
  split at h
  next fits =>
    simp only [Except.ok.injEq] at h
    rw [← h, copySpan, size_overwrite, if_pos fits, overwrite_overwrite]
  · simp at h

theorem Track.next_of_still {t : Track} (h : t.stride = 0) : t.next = t := by
  rw [next, h, Nat.add_zero, ← h]

theorem copyRows_of_copied {done : Array UInt8} {target : Track} {src : Array UInt8} {origin : Track}
    {rowBytes : Nat} (still : target.stride = 0 ∧ origin.stride = 0)
    (copied : copySpan done target.first src origin.first rowBytes = .ok done) (rows : Nat) :
    copyRows done target src origin rowBytes rows = .ok done := by
  induction rows with
  | zero => rfl
  | succ rows ih =>
    rw [copyRows, copied]
    simp only [Track.next_of_still still.1, Track.next_of_still still.2]
    exact ih

theorem copyRows_min_one (dst : Array UInt8) {target : Track} (src : Array UInt8) {origin : Track}
    (rowBytes : Nat) (still : target.stride = 0 ∧ origin.stride = 0) (rows : Nat) :
    copyRows dst target src origin rowBytes (min rows 1) = copyRows dst target src origin rowBytes rows := by
  cases rows with
  | zero => rfl
  | succ rows =>
    have once : min (rows + 1) 1 = 0 + 1 := by omega
    simp only [once, copyRows, Track.next_of_still still.1, Track.next_of_still still.2]
    cases copied : copySpan dst target.first src origin.first rowBytes with
    | error f => rfl
    | ok done => exact (copyRows_of_copied still (copySpan_copySpan copied) rows).symm

end InverseTelecine
