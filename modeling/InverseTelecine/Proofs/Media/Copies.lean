import InverseTelecine.Media.Rows

namespace InverseTelecine

namespace Track

def place (t : Track) (row : Nat) : Nat := t.first + row * t.stride

def Holds (t : Track) (rowBytes rows size : Nat) : Prop :=
  t.first ≤ size ∧ ∀ row < rows, t.place row + rowBytes ≤ size

theorem place_zero (t : Track) : t.place 0 = t.first := by
  simp [place]

theorem place_next (t : Track) (row : Nat) : t.next.place row = t.place (row + 1) := by
  simp only [place, next, Nat.succ_mul]
  omega

theorem place_le {t : Track} {row later : Nat} (order : row ≤ later) : t.place row ≤ t.place later :=
  Nat.add_le_add_left (Nat.mul_le_mul_right t.stride order) t.first

theorem place_add_stride_le {t : Track} {row later : Nat} (order : row < later) :
    t.place row + t.stride ≤ t.place later := by
  have below : t.place (row + 1) ≤ t.place later := place_le order
  have step : t.place (row + 1) = t.place row + t.stride := by
    simp only [place, Nat.succ_mul]
    omega
  omega

theorem place_apart {t : Track} {rowBytes row other i : Nat} (narrow : rowBytes ≤ t.stride)
    (distinct : row ≠ other) (inside : i < rowBytes) :
    t.place row + i < t.place other ∨ t.place other + rowBytes ≤ t.place row + i := by
  rcases Nat.lt_or_gt_of_ne distinct with before | after
  · have gap : t.place row + t.stride ≤ t.place other := place_add_stride_le before
    omega
  · have gap : t.place other + t.stride ≤ t.place row := place_add_stride_le after
    omega

end Track

/-- `out` is `dst` with the rows of `src` in the place of its own. -/
structure CopiedRows (dst out : Array UInt8) (target : Track) (src : Array UInt8) (origin : Track)
    (rowBytes rows : Nat) : Prop where
  size : out.size = dst.size
  inside : ∀ row < rows, ∀ i < rowBytes, out[target.place row + i]? = src[origin.place row + i]?
  outside : ∀ i, (∀ row < rows, i < target.place row ∨ target.place row + rowBytes ≤ i) →
    out[i]? = dst[i]?

theorem copySpan_copied {dst src : Array UInt8} {target origin count : Nat}
    (room : target + count ≤ dst.size) (supply : origin + count ≤ src.size) :
    ∃ out, copySpan dst target src origin count = .ok out ∧ out.size = dst.size ∧
      (∀ i < count, out[target + i]? = src[origin + i]?) ∧
      ∀ i, i < target ∨ target + count ≤ i → out[i]? = dst[i]? := by
  have length : (src.extract origin (origin + count)).size = count := by
    rw [Array.size_extract]
    omega
  refine ⟨overwrite dst target (src.extract origin (origin + count)), ?_, ?_, ?_, ?_⟩
  · rw [copySpan, if_pos ⟨room, supply⟩]
  · exact size_overwrite _ _ _
  · intro i bound
    rw [getElem?_overwrite_inside (by omega) (by omega) (by omega), Array.getElem?_extract,
      Nat.add_sub_cancel_left, if_pos (by omega)]
  · intro i out
    exact getElem?_overwrite_outside (by omega)

theorem copyRows_copied {dst src : Array UInt8} {target origin : Track} {rowBytes rows : Nat}
    (narrow : rowBytes ≤ target.stride) (room : ∀ row < rows, target.place row + rowBytes ≤ dst.size)
    (supply : ∀ row < rows, origin.place row + rowBytes ≤ src.size) :
    ∃ out, copyRows dst target src origin rowBytes rows = .ok out ∧
      CopiedRows dst out target src origin rowBytes rows := by
  induction rows generalizing dst target origin with
  | zero => exact ⟨dst, rfl, rfl, fun _ bound => absurd bound (Nat.not_lt_zero _), fun _ _ => rfl⟩
  | succ rows ih =>
    have head := room 0 (Nat.succ_pos rows)
    have source := supply 0 (Nat.succ_pos rows)
    rw [Track.place_zero] at head source
    obtain ⟨done, copied, size, inside, outside⟩ := copySpan_copied head source
    have later : ∀ row < rows, target.next.place row + rowBytes ≤ done.size := by
      intro row bound
      rw [Track.place_next, size]
      exact room (row + 1) (by omega)
    have laterSource : ∀ row < rows, origin.next.place row + rowBytes ≤ src.size := by
      intro row bound
      rw [Track.place_next]
      exact supply (row + 1) (by omega)
    obtain ⟨out, rest, result⟩ := ih (show rowBytes ≤ target.next.stride from narrow) later laterSource
    refine ⟨out, ?_, ?_, ?_, ?_⟩
    · rw [copyRows, copied]
      exact rest
    · rw [result.size, size]
    · intro row bound i bytes
      cases row with
      | zero =>
        -- The rows that follow leave the first one as it was copied.
        have kept : out[target.place 0 + i]? = done[target.place 0 + i]? := by
          apply result.outside
          intro row _
          rw [Track.place_next]
          exact Track.place_apart narrow (Nat.succ_ne_zero row).symm bytes
        rw [kept, Track.place_zero, Track.place_zero, inside i bytes]
      | succ row =>
        rw [← Track.place_next, ← Track.place_next]
        exact result.inside row (by omega) i bytes
    · intro i out
      have first := out 0 (Nat.succ_pos rows)
      rw [Track.place_zero] at first
      rw [result.outside i, outside i first]
      intro row bound
      rw [Track.place_next]
      exact out (row + 1) (by omega)

theorem copySpan_gapless {dst src : Array UInt8} {target origin : Track} {rowBytes rows : Nat}
    (gapless : rowBytes = target.stride) (sourceGapless : rowBytes = origin.stride)
    (room : target.first + rowBytes * rows ≤ dst.size)
    (supply : origin.first + rowBytes * rows ≤ src.size) :
    ∃ out, copySpan dst target.first src origin.first (rowBytes * rows) = .ok out ∧
      CopiedRows dst out target src origin rowBytes rows := by
  obtain ⟨out, copied, size, inside, outside⟩ := copySpan_copied room supply
  refine ⟨out, copied, size, ?_, ?_⟩
  · intro row bound i bytes
    have fits : row * rowBytes + rowBytes ≤ rows * rowBytes := by
      rw [← Nat.succ_mul]
      exact Nat.mul_le_mul_right rowBytes bound
    have span : row * rowBytes + i < rowBytes * rows := by
      rw [Nat.mul_comm rowBytes rows]
      omega
    simp only [Track.place, ← gapless, ← sourceGapless, Nat.add_assoc]
    exact inside (row * rowBytes + i) span
  · intro i apart
    apply outside
    apply Decidable.byContradiction
    intro within
    have positive : 0 < rowBytes := by
      rcases Nat.eq_zero_or_pos rowBytes with zero | positive
      · rw [zero, Nat.zero_mul] at within
        omega
      · exact positive
    -- The row that the byte would lie in.
    have bound : (i - target.first) / rowBytes < rows :=
      (Nat.div_lt_iff_lt_mul positive).mpr (by rw [Nat.mul_comm rows rowBytes]; omega)
    have parts := Nat.div_add_mod (i - target.first) rowBytes
    have rest := Nat.mod_lt (i - target.first) positive
    have row := apart _ bound
    simp only [Track.place, ← gapless, Nat.mul_comm _ rowBytes] at row
    omega

theorem copyBlock_copied {dst src : Array UInt8} {target origin : Track} {rowBytes rows : Nat}
    (narrow : rowBytes ≤ target.stride) (room : target.Holds rowBytes rows dst.size)
    (supply : origin.Holds rowBytes rows src.size) :
    ∃ out, copyBlock dst target src origin rowBytes rows = .ok out ∧
      CopiedRows dst out target src origin rowBytes rows := by
  rw [copyBlock]
  split
  next gapless =>
    have whole : ∀ {t : Track} {size : Nat}, rowBytes = t.stride → t.Holds rowBytes rows size →
        t.first + rowBytes * rows ≤ size := by
      intro t size same holds
      cases rows with
      | zero => simpa using holds.1
      | succ rows =>
        have last := holds.2 rows (Nat.lt_succ_self rows)
        rw [Track.place, ← same] at last
        rw [Nat.mul_comm, Nat.succ_mul]
        omega
    exact copySpan_gapless gapless.1 gapless.2 (whole gapless.1 room) (whole gapless.2 supply)
  next =>
    split
    next still =>
      rw [copyRows_min_one dst src rowBytes still rows]
      exact copyRows_copied narrow room.2 supply.2
    next => exact copyRows_copied narrow room.2 supply.2

end InverseTelecine
