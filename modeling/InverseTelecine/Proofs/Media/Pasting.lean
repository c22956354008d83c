import InverseTelecine.Proofs.Media.Weaving

namespace InverseTelecine

section block

variable {dst src out other : Array UInt8} {target origin : Track} {rowBytes rows : Nat}

theorem CopiedRows.unique (h : CopiedRows dst out target src origin rowBytes rows)
    (h' : CopiedRows dst other target src origin rowBytes rows) : out = other := by
  apply Array.ext_getElem?
  intro i
  by_cases within : ∃ row < rows, target.place row ≤ i ∧ i < target.place row + rowBytes
  · obtain ⟨row, bound, low, high⟩ := within
    have place : target.place row + (i - target.place row) = i := by omega
    have byte := (h.inside row bound (i - target.place row) (by omega)).trans
      (h'.inside row bound (i - target.place row) (by omega)).symm
    rwa [place] at byte
  · have apart : ∀ row < rows, i < target.place row ∨ target.place row + rowBytes ≤ i := by
      intro row bound
      apply Decidable.byContradiction
      intro inside
      exact within ⟨row, bound, by omega, by omega⟩
    rw [h.outside i apart, h'.outside i apart]

theorem size_of_copySpan {first start count : Nat} (h : copySpan dst first src start count = .ok out) :
    out.size = dst.size := by
  unfold copySpan at h
  split at h
  · cases h
    exact size_overwrite _ _ _
  · cases h

theorem copyRows_eq_error_iff (dst : Array UInt8) (target : Track) (src : Array UInt8) (origin : Track)
    (rowBytes rows : Nat) (f : Fault) :
    copyRows dst target src origin rowBytes rows = .error f ↔
      (∃ row < rows, dst.size < target.place row + rowBytes ∨ src.size < origin.place row + rowBytes) ∧
        f = .bytesOutOfRange := by
  induction rows generalizing dst target origin with
  | zero => simp [copyRows]
  | succ rows ih =>
    rw [Nat.exists_lt_succ_left, Track.place_zero, Track.place_zero, copyRows]
    cases head : copySpan dst target.first src origin.first rowBytes with
    | error g =>
      obtain ⟨short, rfl⟩ := (copySpan_eq_error_iff _ _ _ _ _ _).mp head
      simp only [short, true_or, true_and, Except.error.injEq, eq_comm]
    | ok done =>
      have fits : ¬(dst.size < target.first + rowBytes ∨ src.size < origin.first + rowBytes) := by
        intro short
        have failed := (copySpan_eq_error_iff dst target.first src origin.first rowBytes _).mpr ⟨short, rfl⟩
        rw [head] at failed
        cases failed
      simp only [ih, size_of_copySpan head, Track.place_next, fits, false_or]

theorem exists_row_lt_iff (t : Track) (size rowBytes rows : Nat) :
    (∃ row < rows, size < t.place row + rowBytes) ↔ 0 < rows ∧ size < t.place (rows - 1) + rowBytes := by
  constructor
  · rintro ⟨row, bound, short⟩
    have later : t.place row ≤ t.place (rows - 1) := Track.place_le (by omega)
    omega
  · rintro ⟨some, short⟩
    exact ⟨rows - 1, by omega, short⟩

theorem copyRows_eq_error_iff_last (dst : Array UInt8) (target : Track) (src : Array UInt8) (origin : Track)
    (rowBytes rows : Nat) :
    (∃ f, copyRows dst target src origin rowBytes rows = .error f) ↔
      0 < rows ∧ (dst.size < target.place (rows - 1) + rowBytes ∨ src.size < origin.place (rows - 1) + rowBytes) := by
  simp only [copyRows_eq_error_iff, exists_and_left, exists_eq, and_true, and_or_left, exists_or, exists_row_lt_iff]

theorem copied_of_copyRows (narrow : rowBytes ≤ target.stride)
    (done : copyRows dst target src origin rowBytes rows = .ok out) : CopiedRows dst out target src origin rowBytes rows := by
  have fits : ∀ row < rows, ¬(dst.size < target.place row + rowBytes ∨ src.size < origin.place row + rowBytes) := by
    intro row bound short
    have failed := (copyRows_eq_error_iff dst target src origin rowBytes rows _).mpr ⟨⟨row, bound, short⟩, rfl⟩
    rw [done] at failed
    cases failed
  have room : ∀ row < rows, target.place row + rowBytes ≤ dst.size :=
    fun row bound => Nat.le_of_not_lt fun short => fits row bound (.inl short)
  have supply : ∀ row < rows, origin.place row + rowBytes ≤ src.size :=
    fun row bound => Nat.le_of_not_lt fun short => fits row bound (.inr short)
  obtain ⟨other, same, copied⟩ := copyRows_copied narrow room supply
  obtain rfl := Except.ok.inj (done.symm.trans same)
  exact copied

theorem copyRows_eq_foldlM (dst : Array UInt8) (target : Track) (src : Array UInt8) (origin : Track)
    (rowBytes rows : Nat) :
    copyRows dst target src origin rowBytes rows =
      (List.range rows).foldlM (fun out row => copySpan out (target.place row) src (origin.place row) rowBytes) dst := by
  induction rows generalizing dst target origin with
  | zero => rfl
  | succ rows ih =>
    rw [List.range_succ_eq_map, List.foldlM_cons, Track.place_zero, Track.place_zero, copyRows]
    cases copySpan dst target.first src origin.first rowBytes with
    | error f => rfl
    | ok done =>
      simp only [ih, Track.place_next, bind, Except.bind, List.foldlM_map, Nat.succ_eq_add_one]

/-- Rows without gaps, copied as one span, are copied as rows; also where they do not fit. -/
theorem copySpan_eq_copyRows (gapless : rowBytes = target.stride) (sourceGapless : rowBytes = origin.stride)
    (inside : target.first ≤ dst.size) (sourceInside : origin.first ≤ src.size) :
    copySpan dst target.first src origin.first (rowBytes * rows) = copyRows dst target src origin rowBytes rows := by
  have span : ∀ {t : Track} {row : Nat}, rowBytes = t.stride → row < rows →
      t.place row + rowBytes ≤ t.first + rowBytes * rows := by
    intro t row same bound
    have step : (row + 1) * rowBytes ≤ rows * rowBytes := Nat.mul_le_mul_right rowBytes bound
    rw [Nat.succ_mul, Nat.mul_comm rows] at step
    rw [Track.place, ← same]
    omega
  by_cases fits : target.first + rowBytes * rows ≤ dst.size ∧ origin.first + rowBytes * rows ≤ src.size
  · obtain ⟨out, whole, copied⟩ := copySpan_gapless gapless sourceGapless fits.1 fits.2
    obtain ⟨other, single, copied'⟩ := copyRows_copied (Nat.le_of_eq gapless)
      (fun row bound => Nat.le_trans (span gapless bound) fits.1)
      (fun row bound => Nat.le_trans (span sourceGapless bound) fits.2)
    rw [whole, single, copied.unique copied']
  · have some : 0 < rows := by
      apply Nat.pos_of_ne_zero
      rintro rfl
      exact fits ⟨inside, sourceInside⟩
    have last : ∀ {t : Track}, rowBytes = t.stride → t.place (rows - 1) + rowBytes = t.first + rowBytes * rows := by
      intro t same
      have step : (rows - 1 + 1) * rowBytes = rowBytes * rows := by rw [Nat.sub_add_cancel some, Nat.mul_comm]
      rw [Nat.succ_mul] at step
      rw [Track.place, ← same]
      omega
    have short : dst.size < target.first + rowBytes * rows ∨ src.size < origin.first + rowBytes * rows := by omega
    obtain ⟨f, single⟩ := (copyRows_eq_error_iff_last dst target src origin rowBytes rows).mpr
      ⟨some, by rwa [last gapless, last sourceGapless]⟩
    rw [single, (copySpan_eq_error_iff _ _ _ _ _ f).mpr ⟨short, ((copyRows_eq_error_iff _ _ _ _ _ _ _).mp single).2⟩]

theorem copyBlock_eq_copyRows (inside : target.first ≤ dst.size) (sourceInside : origin.first ≤ src.size)
    (rowBytes rows : Nat) :
    copyBlock dst target src origin rowBytes rows = copyRows dst target src origin rowBytes rows := by
  rw [copyBlock]
  split
  next gapless => exact copySpan_eq_copyRows gapless.1 gapless.2 inside sourceInside
  next =>
    split
    next still => exact copyRows_min_one dst src rowBytes still rows
    next => rfl

end block

theorem Plane.Fits.paste_sameButRows {dst src out : Plane} {e : Extent} (hd : dst.Fits e) (hs : src.Fits e)
    (pasted : dst.paste src = .ok out) : out.SameButRows dst := by
  obtain ⟨bytes, copied, result⟩ := hd.paste_copied hs
  rw [copied] at pasted
  obtain rfl := Except.ok.inj pasted
  refine ⟨rfl, rfl, result.size, ?_⟩
  intro i hidden
  apply result.outside
  intro row bound
  have apart := hidden row (by rwa [hd.extent])
  rwa [hd.extent, ← place_track] at apart

namespace Picture

variable {dst src out : Picture} {l : Layout}

theorem pastePlanes_sameButRows {outs dsts srcs : List Plane} {es : List Extent}
    (hd : List.Forall₂ Plane.Fits dsts es) (hs : List.Forall₂ Plane.Fits srcs es)
    (pasted : pastePlanes dsts srcs = .ok outs) : List.Forall₂ Plane.SameButRows outs dsts := by
  induction hd generalizing srcs outs with
  | nil =>
    cases hs
    obtain rfl := Except.ok.inj pasted
    exact .nil
  | cons first dstsFit ih =>
    cases hs with
    | cons source rest =>
      obtain ⟨out, head, _⟩ := first.paste source
      obtain ⟨others, tail, _⟩ := pastePlanes_fits dstsFit rest
      rw [pastePlanes, head, tail] at pasted
      obtain rfl := Except.ok.inj pasted
      exact .cons (first.paste_sameButRows source head) (ih rest tail)

theorem Fits.paste_sameButRows (hd : dst.Fits l) (hs : src.Fits l) (pasted : dst.paste src = .ok (.ok (), out)) :
    out.SameButRows dst := by
  obtain ⟨planes, copied, _⟩ := pastePlanes_fits hd.planes hs.planes
  rw [Picture.paste, if_neg (by rw [hd.layout, hs.layout]; exact fun differs => differs rfl), copied] at pasted
  obtain rfl := congrArg Prod.snd (Except.ok.inj pasted)
  exact ⟨rfl, rfl, rfl, pastePlanes_sameButRows hd.planes hs.planes copied⟩

theorem paste_misfit (differs : src.layout ≠ dst.layout) :
    ∃ text, dst.paste src = .ok (.error (.badParameter text), dst) := ⟨_, if_pos (Ne.symm differs)⟩

theorem Fits.row?_paste (hd : dst.Fits l) (hs : src.Fits l) (pasted : dst.paste src = .ok (.ok (), out)) (plane row : Nat) :
    out.row? plane row = src.row? plane row := by
  obtain ⟨result, same, fits, shown⟩ := hd.paste hs
  obtain rfl := congrArg Prod.snd (Except.ok.inj (pasted.symm.trans same))
  rw [← fits.row?_visible, shown, hs.row?_visible]

end Picture

/-- A block of rows is copied as by the loop over its rows, whatever the strides, and fails exactly when its last row
leaves an array. A picture that is pasted into one of its layout gives it its visible rows and nothing else; one of another
layout is refused, and the picture stays as it was, as does a donor that holds it. -/
theorem copying_exact :
    (∀ (dst src : Array UInt8) (targetStride originStride rowBytes rows : Nat),
      let copied := copyBlock dst ⟨0, targetStride⟩ src ⟨0, originStride⟩ rowBytes rows
      ((∃ f, copied = .error f) ↔ 0 < rows ∧
        (dst.size < (rows - 1) * targetStride + rowBytes ∨ src.size < (rows - 1) * originStride + rowBytes)) ∧
        (∀ out, copied = .ok out → rowBytes ≤ targetStride →
          CopiedRows dst out ⟨0, targetStride⟩ src ⟨0, originStride⟩ rowBytes rows) ∧
        copied = (List.range rows).foldlM
          (fun out row => copySpan out (row * targetStride) src (row * originStride) rowBytes) dst) ∧
      (∀ (dst src : Picture) (l : Layout), dst.Fits l → src.Fits l →
        ∃ out, dst.paste src = .ok (.ok (), out) ∧ out.SameButRows dst ∧
          ∀ plane e, l.extents[plane]? = some e → ∀ row < e.rows,
            ∃ bytes, bytes.size = e.rowBytes ∧ out.row? plane row = some bytes ∧ src.row? plane row = some bytes) ∧
      ∀ dst src : Picture, dst.layout ≠ src.layout →
        ∃ text, dst.paste src = .ok (.error (.badParameter text), dst) ∧
          ∀ r : Restorer, r.donor.picture = dst →
            Restorer.keepInput src r = .error (.error (.media (.badParameter text))) r := by
  refine ⟨?_, ?_, ?_⟩
  · intro dst src targetStride originStride rowBytes rows copied
    have loop : copied = copyRows dst ⟨0, targetStride⟩ src ⟨0, originStride⟩ rowBytes rows :=
      copyBlock_eq_copyRows (Nat.zero_le _) (Nat.zero_le _) rowBytes rows
    have fails := copyRows_eq_error_iff_last dst ⟨0, targetStride⟩ src ⟨0, originStride⟩ rowBytes rows
    have each := copyRows_eq_foldlM dst ⟨0, targetStride⟩ src ⟨0, originStride⟩ rowBytes rows
    simp only [Track.place, Nat.zero_add] at fails each
    rw [← loop] at fails each
    refine ⟨fails, ?_, each⟩
    intro out done narrow
    rw [loop] at done
    exact copied_of_copyRows narrow done
  · intro dst src l hd hs
    obtain ⟨out, pasted, fits, _⟩ := hd.paste hs
    refine ⟨out, pasted, hd.paste_sameButRows hs pasted, ?_⟩
    intro plane e shape row bound
    obtain ⟨bytes, size, shown⟩ := fits.exists_row shape bound
    exact ⟨bytes, size, shown, (hd.row?_paste hs pasted plane row).symm.trans shown⟩
  · intro dst src differs
    obtain ⟨text, refused⟩ := Picture.paste_misfit (Ne.symm differs)
    refine ⟨text, refused, ?_⟩
    rintro r rfl
    rw [Restorer.keepInput, Donor.keep, refused]

theorem copying_exact_odd :
    (∃ f, copyBlock #[0, 0, 0] ⟨0, 2⟩ #[1, 2, 3, 4] ⟨0, 2⟩ 2 2 = .error f) ∧
      (∃ out, copyBlock #[0, 0, 0] ⟨0, 2⟩ #[1, 2] ⟨0, 1⟩ 1 2 = .ok out ∧ out = #[1, 0, 2] ∧
        CopiedRows #[0, 0, 0] out ⟨0, 2⟩ #[1, 2] ⟨0, 1⟩ 1 2) ∧
      (∃ out, (Picture.ofOddRows 0 1 99).paste (.ofOddRows 2 3 98) = .ok (.ok (), out) ∧ out.SameButRows (.ofOddRows 0 1 99) ∧
        out.row? 1 1 = some #[3]) ∧
      ∃ text, (Picture.ofOddRows 0 1 99).paste (.blank ⟨1, 3, .gray8⟩) =
        .ok (.error (.badParameter text), .ofOddRows 0 1 99) := by
  obtain ⟨blocks, pictures, others⟩ := copying_exact
  refine ⟨?_, ?_, ?_, ?_⟩
  · exact (blocks #[0, 0, 0] #[1, 2, 3, 4] 2 2 2 2).1.mpr (by decide)
  · exact ⟨_, rfl, rfl, (blocks #[0, 0, 0] #[1, 2] 2 1 1 2).2.1 _ rfl (by decide)⟩
  · obtain ⟨out, pasted, keeps, shows⟩ := pictures _ _ _ (Picture.ofOddRows_fits 0 1 99) (Picture.ofOddRows_fits 2 3 98)
    obtain ⟨bytes, _, shown, source⟩ := shows 1 ⟨1, 2⟩ rfl 1 (by decide)
    refine ⟨out, pasted, keeps, ?_⟩
    rw [shown, ← source]
    decide
  · obtain ⟨text, refused, _⟩ := others (.ofOddRows 0 1 99) (.blank ⟨1, 3, .gray8⟩) (by decide)
    exact ⟨text, refused⟩

end InverseTelecine
