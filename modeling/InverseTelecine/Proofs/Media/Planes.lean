import InverseTelecine.Field.Weave
import InverseTelecine.Proofs.Media.Copies
import Mathlib.Data.List.Basic

namespace InverseTelecine.Plane

/-- The plane shows the rows of `e` and has bytes for all of them. -/
structure Fits (p : Plane) (e : Extent) : Prop where
  extent : p.extent = e
  wide : e.rowBytes ≤ p.stride
  room : e.rows * p.stride ≤ p.bytes.size

variable {p q dst src current held : Plane} {e : Extent}

theorem make_eq_ok {memory : Memory} {index : Nat} (h : make memory index e = .ok p) : p = blank e := by
  simp only [make] at h
  repeat (split at h; · cases h)
  exact (Except.ok.inj h).symm

theorem blank_fits (e : Extent) : (blank e).Fits e where
  extent := rfl
  wide := paddedWidth_ge e.rowBytes
  room := by
    simp only [blank, paddedSize, Array.size_replicate, Nat.mul_comm]
    exact Nat.le_refl _

theorem Fits.row_end_le (h : p.Fits e) {row : Nat} (bound : row < e.rows) :
    row * p.stride + e.rowBytes ≤ p.bytes.size := by
  have wide := h.wide
  have room := h.room
  have next : (row + 1) * p.stride ≤ e.rows * p.stride := Nat.mul_le_mul_right p.stride bound
  rw [Nat.succ_mul] at next
  omega

theorem Fits.row?_of_lt (h : p.Fits e) {row : Nat} (bound : row < e.rows) :
    p.row? row = some (p.bytes.extract (row * p.stride) (row * p.stride + e.rowBytes)) := by
  have inside := h.row_end_le bound
  simp only [row?, h.extent]
  rw [if_pos ⟨bound, inside⟩]

theorem Fits.row?_of_ge (h : p.Fits e) {row : Nat} (bound : e.rows ≤ row) : p.row? row = none := by
  simp only [row?, h.extent]
  rw [if_neg (by omega)]

theorem Fits.lt_of_row? (h : p.Fits e) {row : Nat} {bytes : Array UInt8} (shown : p.row? row = some bytes) :
    row < e.rows := by
  apply Nat.lt_of_not_le
  intro beyond
  rw [h.row?_of_ge beyond] at shown
  cases shown

theorem Fits.rows_eq_map (h : p.Fits e) :
    p.rows = (List.range e.rows).map fun row =>
      p.bytes.extract (row * p.stride) (row * p.stride + e.rowBytes) := by
  rw [rows, h.extent, ← List.filterMap_eq_map]
  apply List.filterMap_congr
  intro row member
  exact h.row?_of_lt (List.mem_range.mp member)

theorem Fits.length_rows (h : p.Fits e) : p.rows.length = e.rows := by
  rw [h.rows_eq_map, List.length_map, List.length_range]

theorem Fits.getElem?_rows (h : p.Fits e) (row : Nat) : p.rows[row]? = p.row? row := by
  by_cases bound : row < e.rows
  · rw [h.rows_eq_map, h.row?_of_lt bound, List.getElem?_map, List.getElem?_range bound, Option.map_some]
  · rw [h.row?_of_ge (by omega), List.getElem?_eq_none (by rw [h.length_rows]; omega)]

theorem Fits.rows_congr (hp : p.Fits e) (hq : q.Fits e) (same : ∀ row, p.row? row = q.row? row) :
    p.rows = q.rows := by
  apply List.ext_getElem?
  intro row
  rw [hp.getElem?_rows, hq.getElem?_rows, same]

theorem Fits.row?_congr (hp : p.Fits e) (hq : q.Fits e) {row : Nat}
    (same : row < e.rows → ∀ i < e.rowBytes, p.bytes[row * p.stride + i]? = q.bytes[row * q.stride + i]?) :
    p.row? row = q.row? row := by
  by_cases bound : row < e.rows
  · have left := hp.row_end_le bound
    have right := hq.row_end_le bound
    rw [hp.row?_of_lt bound, hq.row?_of_lt bound]
    congr 1
    apply Array.ext_getElem?
    intro i
    rw [Array.getElem?_extract, Array.getElem?_extract]
    by_cases inside : i < e.rowBytes
    · rw [if_pos (by omega), if_pos (by omega)]
      exact same bound i inside
    · rw [if_neg (by omega), if_neg (by omega)]
  · rw [hp.row?_of_ge (by omega), hq.row?_of_ge (by omega)]

theorem Fits.of_size {bytes : Array UInt8} (h : p.Fits e) (size : bytes.size = p.bytes.size) :
    Fits { p with bytes } e :=
  ⟨h.extent, h.wide, size ▸ h.room⟩

theorem place_track (p : Plane) (row : Nat) : p.track.place row = row * p.stride := by
  simp [track, Track.place]

theorem place_fieldTrack (p : Plane) (first row : Nat) :
    (p.fieldTrack first).place row = (first + 2 * row) * p.stride := by
  rw [fieldTrack, Track.place, Nat.add_mul, Nat.mul_comm p.stride 2, ← Nat.mul_assoc, Nat.mul_comm row 2]

theorem Fits.track_holds (h : p.Fits e) : p.track.Holds e.rowBytes e.rows p.bytes.size := by
  refine ⟨Nat.zero_le _, ?_⟩
  intro row bound
  rw [place_track]
  exact h.row_end_le bound

theorem Fits.paste_copied (hd : dst.Fits e) (hs : src.Fits e) :
    ∃ bytes, dst.paste src = .ok { dst with bytes } ∧
      CopiedRows dst.bytes bytes dst.track src.bytes src.track e.rowBytes e.rows := by
  obtain ⟨bytes, copied, result⟩ := copyBlock_copied hd.wide hd.track_holds hs.track_holds
  refine ⟨bytes, ?_, result⟩
  rw [Plane.paste, hd.extent, copied]
  rfl

theorem Fits.paste (hd : dst.Fits e) (hs : src.Fits e) :
    ∃ out, dst.paste src = .ok out ∧ out.Fits e ∧ ∀ row, out.row? row = src.row? row := by
  obtain ⟨bytes, pasted, result⟩ := hd.paste_copied hs
  have fits : Fits { dst with bytes } e := hd.of_size result.size
  refine ⟨{ dst with bytes }, pasted, fits, ?_⟩
  intro row
  apply fits.row?_congr hs
  intro bound i inside
  have equal := result.inside row bound i inside
  rwa [place_track, place_track] at equal

theorem Fits.fieldTrack_holds (h : p.Fits e) {parity : Nat} (bound : parity < e.rows) :
    (p.fieldTrack parity).Holds e.rowBytes ((e.rows - parity + 1) / 2) p.bytes.size := by
  constructor
  · have inside := h.row_end_le bound
    exact Nat.le_trans (Nat.le_add_right _ _) inside
  · intro row more
    rw [place_fieldTrack]
    exact h.row_end_le (by omega)

theorem Fits.takeField_copied (hd : dst.Fits e) (hs : src.Fits e) (parity : Nat) :
    ∃ bytes, dst.takeField src parity = .ok { dst with bytes } ∧
      CopiedRows dst.bytes bytes (dst.fieldTrack parity) src.bytes (src.fieldTrack parity) e.rowBytes
        ((e.rows - parity + 1) / 2) := by
  obtain rfl := hd.extent
  rw [Plane.takeField, fieldSpan]
  by_cases short : dst.extent.rows ≤ parity
  · refine ⟨dst.bytes, by rw [if_pos short]; rfl, rfl, ?_, fun _ _ => rfl⟩
    intro row more
    omega
  · have target := hd.fieldTrack_holds (Nat.lt_of_not_le short)
    have origin := hs.fieldTrack_holds (Nat.lt_of_not_le short)
    have wide : dst.extent.rowBytes ≤ (dst.fieldTrack parity).stride :=
      Nat.le_trans hd.wide (by simp [fieldTrack]; omega)
    obtain ⟨bytes, copied, result⟩ := copyBlock_copied wide target origin
    have inside : ¬(dst.bytes.size < parity * dst.stride ∨ src.bytes.size < parity * src.stride) := by
      have first : parity * dst.stride ≤ dst.bytes.size := target.1
      have second : parity * src.stride ≤ src.bytes.size := origin.1
      omega
    refine ⟨bytes, ?_, result⟩
    simp only [if_neg short]
    rw [if_neg (by omega), if_neg inside, copied]
    rfl

theorem Fits.takeField (hd : dst.Fits e) (hs : src.Fits e) (parity : Nat) (binary : parity < 2) :
    ∃ out, dst.takeField src parity = .ok out ∧ out.Fits e ∧
      ∀ row, out.row? row = if row % 2 = parity then src.row? row else dst.row? row := by
  obtain ⟨bytes, taken, result⟩ := hd.takeField_copied hs parity
  have fits : Fits { dst with bytes } e := hd.of_size result.size
  refine ⟨{ dst with bytes }, taken, fits, ?_⟩
  intro row
  split
  next same =>
    apply fits.row?_congr hs
    intro bound i byte
    have equal := result.inside (row / 2) (by omega) i byte
    have number : parity + 2 * (row / 2) = row := by omega
    rwa [place_fieldTrack, place_fieldTrack, number] at equal
  next differs =>
    apply fits.row?_congr hd
    intro bound i byte
    apply result.outside
    intro other _
    rw [place_fieldTrack, ← place_track, ← place_track]
    exact Track.place_apart hd.wide (by omega) byte

theorem Fits.weave (hd : dst.Fits e) (hc : current.Fits e) (hh : held.Fits e) {parity : Nat}
    (binary : parity < 2) :
    ∃ out, dst.weave current held parity = .ok out ∧ out.Fits e ∧
      ∀ row, out.row? row = if row % 2 = parity then current.row? row else held.row? row := by
  obtain ⟨half, taken, halfFits, halfRows⟩ := hd.takeField hc parity binary
  obtain ⟨out, rest, fits, rows⟩ := halfFits.takeField hh (1 - parity) (by omega)
  refine ⟨out, ?_, fits, ?_⟩
  · rw [Plane.weave, taken]
    exact rest
  · intro row
    rw [rows, halfRows]
    by_cases first : row % 2 = parity
    · rw [if_neg (by omega), if_pos first, if_pos first]
    · rw [if_pos (by omega), if_neg first]

section write

variable {row other : Nat} {bytes old : Array UInt8}

theorem Fits.write (h : p.Fits e) (start : Nat) (bytes : Array UInt8) : (p.write start bytes).Fits e :=
  h.of_size (size_overwrite _ _ _)

theorem Fits.row?_write_apart (h : p.Fits e) (size : bytes.size ≤ e.rowBytes) (differs : other ≠ row) :
    (p.write (row * p.stride) bytes).row? other = p.row? other := by
  apply (h.write _ _).row?_congr h
  intro _ i inside
  have apart : other * p.stride + i < row * p.stride ∨ row * p.stride + e.rowBytes ≤ other * p.stride + i := by
    rw [← place_track, ← place_track]
    exact Track.place_apart h.wide differs inside
  apply getElem?_overwrite_outside
  change other * p.stride + i < row * p.stride ∨ row * p.stride + bytes.size ≤ other * p.stride + i
  omega

theorem Fits.getElem?_row?_write (h : p.Fits e) (bound : row < e.rows) (size : bytes.size ≤ e.rowBytes)
    (was : p.row? row = some old) :
    ∃ new, (p.write (row * p.stride) bytes).row? row = some new ∧ new.size = old.size ∧
      ∀ i < old.size, new[i]? = bytes[i]?.or old[i]? := by
  have room := h.row_end_le bound
  have now := (h.write (row * p.stride) bytes).row?_of_lt bound
  rw [h.row?_of_lt bound] at was
  obtain rfl := Option.some.inj was
  refine ⟨_, now, ?_, ?_⟩
  · simp only [Array.size_extract, Plane.write, size_overwrite]
  · intro i inside
    rw [Array.size_extract] at inside
    simp only [Array.getElem?_extract, Plane.write, size_overwrite]
    rw [if_pos (by omega), if_pos (by omega)]
    by_cases covered : i < bytes.size
    · rw [getElem?_overwrite_inside (by omega) (by omega) (by omega), Nat.add_sub_cancel_left,
        Array.getElem?_eq_getElem covered, Option.some_or]
    · rw [getElem?_overwrite_outside (by omega), Array.getElem?_eq_none (show bytes.size ≤ i by omega), Option.none_or]

theorem Fits.row?_write (h : p.Fits e) (bound : row < e.rows) (size : bytes.size = e.rowBytes) (other : Nat) :
    (p.write (row * p.stride) bytes).row? other = if other = row then some bytes else p.row? other := by
  split
  next same =>
    obtain rfl := same
    have room := h.row_end_le bound
    obtain ⟨new, shown, length, written⟩ := h.getElem?_row?_write bound (Nat.le_of_eq size) (h.row?_of_lt bound)
    rw [shown, Option.some_inj]
    rw [Array.size_extract] at length written
    apply Array.ext_getElem?
    intro i
    by_cases inside : i < bytes.size
    · rw [written i (by omega), Array.getElem?_eq_getElem inside, Option.some_or]
    · rw [Array.getElem?_eq_none (by omega), Array.getElem?_eq_none (by omega)]
  next differs => exact h.row?_write_apart (Nat.le_of_eq size) differs

end write

end InverseTelecine.Plane
