import InverseTelecine.Proofs.Media.Pasting
import Mathlib.Order.Bounds.Defs

namespace InverseTelecine

namespace Plane

variable {p q dst src : Plane} {e : Extent}

theorem Fits.write_sameButRows (h : p.Fits e) {row : ℕ} (bound : row < e.rows) {bytes : Array UInt8}
    (size : bytes.size ≤ e.rowBytes) : (p.write (row * p.stride) bytes).SameButRows p := by
  refine ⟨rfl, rfl, size_overwrite _ _ _, ?_⟩
  intro i hidden
  have apart := hidden row (by rwa [h.extent])
  rw [h.extent] at apart
  exact getElem?_overwrite_outside (by omega)

theorem paddedWidth_isLeast (n : ℕ) : IsLeast {m | 32 ∣ m ∧ n ≤ m} (paddedWidth n) := by
  refine ⟨⟨Nat.dvd_mul_left alignment _, paddedWidth_ge n⟩, ?_⟩
  rintro m ⟨⟨k, rfl⟩, holds⟩
  rw [paddedWidth, alignment]
  omega

/-- The plane has the extent, the least stride of whole units of 32 bytes that holds its rows, and bytes for them and no
others. -/
structure Shaped (p : Plane) (e : Extent) : Prop where
  extent : p.extent = e
  stride : IsLeast {m | 32 ∣ m ∧ e.rowBytes ≤ m} p.stride
  size : p.bytes.size = p.stride * e.rows

theorem blank_shaped (e : Extent) : (blank e).Shaped e where
  extent := rfl
  stride := paddedWidth_isLeast e.rowBytes
  size := Array.size_replicate

theorem Shaped.fits (h : p.Shaped e) : p.Fits e where
  extent := h.extent
  wide := h.stride.1.2
  room := Nat.le_of_eq ((Nat.mul_comm _ _).trans h.size.symm)

theorem Shaped.of_size {bytes : Array UInt8} (h : p.Shaped e) (size : bytes.size = p.bytes.size) :
    Shaped { p with bytes } e :=
  ⟨h.extent, h.stride, size.trans h.size⟩

theorem SameButRows.shaped (same : q.SameButRows p) (h : p.Shaped e) : q.Shaped e where
  extent := same.extent.trans h.extent
  stride := same.stride ▸ h.stride
  size := by rw [same.size, same.stride, h.size]

/-- Byte `i` of the plane lies in row `row`. -/
def InRow (p : Plane) (row i : ℕ) : Prop :=
  row < p.extent.rows ∧ row * p.stride ≤ i ∧ i < row * p.stride + p.extent.rowBytes

theorem Shaped.lt_size (h : p.Shaped e) {row i : ℕ} (inside : p.InRow row i) : i < p.bytes.size := by
  obtain ⟨bound, _, high⟩ := inside
  rw [h.extent] at bound high
  have last := h.fits.row_end_le bound
  omega

theorem Shaped.row_unique (h : p.Shaped e) {row other i : ℕ} (inside : p.InRow row i) (also : p.InRow other i) :
    row = other := by
  obtain ⟨_, low, high⟩ := inside
  obtain ⟨_, otherLow, otherHigh⟩ := also
  rw [h.extent] at high otherHigh
  by_contra differs
  have apart := Track.place_apart (t := p.track) h.fits.wide differs (show i - row * p.stride < e.rowBytes by omega)
  rw [place_track, place_track] at apart
  omega

end Plane

theorem Layout.getElem?_extents (l : Layout) (plane : ℕ) :
    l.extents[plane]? = l.format.extent? l.width l.height plane := by
  rw [Layout.extents, List.getElem?_map, PixelFormat.extent?]
  split
  next inside => rw [List.getElem?_range inside, Option.map_some]
  next outside => rw [List.getElem?_eq_none (by rw [List.length_range]; omega), Option.map_none]

theorem forall₂_set {α β : Type} {R : α → β → Prop} {xs : List α} {ys : List β} (h : List.Forall₂ R xs ys)
    {i : ℕ} {x : α} (fits : ∀ y, ys[i]? = some y → R x y) : List.Forall₂ R (xs.set i x) ys := by
  induction h generalizing i with
  | nil => exact .nil
  | cons head tail ih =>
    cases i with
    | zero => exact .cons (fits _ rfl) tail
    | succ i => exact .cons head (ih fits)

namespace Picture

structure Shaped (p : Picture) (l : Layout) : Prop where
  layout : p.layout = l
  planes : List.Forall₂ Plane.Shaped p.planes l.extents

/-- A picture of the layout that was made blank, and then filled, written to, pasted into and woven in any order; the
pictures that went into it were made in the same way, of whatever layouts. -/
inductive Reached : Layout → Picture → Prop where
  | blank (l : Layout) : Reached l (blank l)
  | fill {l : Layout} {p : Picture} (reached : Reached l p) (value : UInt8) : Reached l (p.fill value)
  | writeRow {l : Layout} {p q : Picture} {plane row : ℕ} {bytes : Array UInt8} (reached : Reached l p)
      (written : p.writeRow? plane row bytes = some q) : Reached l q
  | writePlane {l : Layout} {p q : Picture} {plane start : ℕ} {bytes : Array UInt8} (reached : Reached l p)
      (written : p.writePlane? plane start bytes = some q) : Reached l q
  | paste {l m : Layout} {p src q : Picture} {answer : Except MediaError Unit} (reached : Reached l p)
      (source : Reached m src) (pasted : p.paste src = .ok (answer, q)) : Reached l q
  | weave {l m n : Layout} {p current held q : Picture} {first : FieldParity} {answer : Except FilterError Unit}
      (reached : Reached l p) (fresh : Reached m current) (kept : Reached n held)
      (woven : p.weave current held first = .ok (answer, q)) : Reached l q

variable {p q src dst current held out : Picture} {l m n : Layout} {plane row : ℕ} {bytes : Array UInt8}

theorem blank_shaped (l : Layout) : (blank l).Shaped l where
  layout := rfl
  planes := by
    simp only [blank, ofPlanes, List.forall₂_map_left_iff, List.forall₂_same]
    exact fun e _ => Plane.blank_shaped e

theorem Shaped.fits (h : p.Shaped l) : p.Fits l where
  layout := h.layout
  planes := h.planes.imp fun _ _ shaped => shaped.fits

theorem SameButRows.shaped (same : q.SameButRows p) (h : p.Shaped l) : q.Shaped l where
  layout := same.layout.trans h.layout
  planes := by
    have sames := same.planes
    have shapes := h.planes
    generalize q.planes = qs, p.planes = ps, l.extents = es at sames shapes
    induction shapes generalizing qs with
    | nil =>
      cases sames
      exact .nil
    | cons head _ ih =>
      cases sames with
      | cons same rest => exact .cons (same.shaped head) (ih _ rest)

theorem Shaped.fill (h : p.Shaped l) (value : UInt8) : (p.fill value).Shaped l where
  layout := h.layout
  planes := by
    simp only [Picture.fill, List.forall₂_map_left_iff]
    exact h.planes.imp fun _ _ shaped => shaped.of_size Array.size_replicate

theorem Shaped.set (h : p.Shaped l) {new : Plane} (fits : ∀ e, l.extents[plane]? = some e → new.Shaped e) :
    Shaped { p with planes := p.planes.set plane new } l where
  layout := h.layout
  planes := forall₂_set h.planes fits

theorem Shaped.exists_extent (h : p.Shaped l) {old : Plane} (found : p.planes[plane]? = some old) :
    ∃ e, l.extents[plane]? = some e ∧ old.Shaped e := by
  obtain ⟨inside, rfl⟩ := List.getElem?_eq_some_iff.mp found
  have known : plane < l.extents.length := h.planes.length_eq ▸ inside
  exact ⟨_, List.getElem?_eq_getElem known, h.planes.get inside known⟩

theorem Shaped.writePlane (h : p.Shaped l) {start : ℕ} (written : p.writePlane? plane start bytes = some q) :
    q.Shaped l := by
  obtain ⟨old, found, rfl⟩ := Option.map_eq_some_iff.mp written
  obtain ⟨e, known, shaped⟩ := h.exists_extent found
  apply h.set
  intro other same
  obtain rfl := Option.some.inj (known.symm.trans same)
  exact shaped.of_size (size_overwrite _ _ _)

theorem row?_eq_some_iff :
    p.row? plane row = some bytes ↔ ∃ old, p.planes[plane]? = some old ∧ old.row? row = some bytes :=
  Option.bind_eq_some_iff

theorem Shaped.row?_isSome_iff (h : p.Shaped l) :
    (∃ bytes, p.row? plane row = some bytes) ↔ ∃ e, l.extents[plane]? = some e ∧ row < e.rows := by
  constructor
  · rintro ⟨bytes, shown⟩
    obtain ⟨old, found, shown⟩ := row?_eq_some_iff.mp shown
    obtain ⟨e, known, shaped⟩ := h.exists_extent found
    exact ⟨e, known, shaped.fits.lt_of_row? shown⟩
  · rintro ⟨e, known, bound⟩
    obtain ⟨bytes, _, shown⟩ := h.fits.exists_row known bound
    exact ⟨bytes, shown⟩

theorem Shaped.size_row (h : p.Shaped l) {e : Extent} (known : l.extents[plane]? = some e)
    (shown : p.row? plane row = some bytes) : bytes.size = e.rowBytes := by
  obtain ⟨other, same, bound⟩ := h.row?_isSome_iff.mp ⟨bytes, shown⟩
  obtain rfl := Option.some.inj (known.symm.trans same)
  obtain ⟨also, size, again⟩ := h.fits.exists_row known bound
  obtain rfl := Option.some.inj (shown.symm.trans again)
  exact size

/-- `q` is `p` with the bytes over the start of one row, and nothing else: no other row and no padding. -/
structure RowWritten (q p : Picture) (plane row : ℕ) (bytes : Array UInt8) : Prop where
  sameButRows : q.SameButRows p
  others : ∀ plane' row', plane' ≠ plane ∨ row' ≠ row → q.row? plane' row' = p.row? plane' row'
  row : ∃ old new, p.row? plane row = some old ∧ q.row? plane row = some new ∧ new.size = old.size ∧
    ∀ i < old.size, new[i]? = bytes[i]?.or old[i]?

theorem writeRow?_eq_some_iff :
    p.writeRow? plane row bytes = some q ↔ ∃ old was, p.planes[plane]? = some old ∧ old.row? row = some was ∧
      q = { p with planes := p.planes.set plane (old.write (row * old.stride) (bytes.take was.size)) } := by
  unfold Picture.writeRow? Plane.writeRow?
  cases found : p.planes[plane]? with
  | none => simp
  | some old =>
    cases shown : old.row? row with
    | none => simp [shown]
    | some was => simp [shown, Plane.write, eq_comm]

theorem writeRow?_isSome_iff :
    (∃ q, p.writeRow? plane row bytes = some q) ↔ ∃ old, p.row? plane row = some old := by
  constructor
  · rintro ⟨q, written⟩
    obtain ⟨old, was, found, shown, _⟩ := writeRow?_eq_some_iff.mp written
    exact ⟨was, row?_eq_some_iff.mpr ⟨old, found, shown⟩⟩
  · rintro ⟨was, shown⟩
    obtain ⟨old, found, shown⟩ := row?_eq_some_iff.mp shown
    exact ⟨_, writeRow?_eq_some_iff.mpr ⟨old, was, found, shown, rfl⟩⟩

theorem row?_set {old : Plane} (found : p.planes[plane]? = some old) (new : Plane) (plane' row' : ℕ) :
    Picture.row? { p with planes := p.planes.set plane new } plane' row' =
      if plane' = plane then new.row? row' else p.row? plane' row' := by
  have inside := (List.getElem?_eq_some_iff.mp found).1
  unfold Picture.row?
  by_cases same : plane' = plane
  · obtain rfl := same
    rw [List.getElem?_set_self inside, if_pos rfl, Option.bind_some]
  · rw [List.getElem?_set_ne (Ne.symm same), if_neg same]

theorem Shaped.writeRow (h : p.Shaped l) (written : p.writeRow? plane row bytes = some q) :
    q.RowWritten p plane row bytes := by
  obtain ⟨old, was, found, shown, rfl⟩ := writeRow?_eq_some_iff.mp written
  obtain ⟨e, known, shaped⟩ := h.exists_extent found
  have bound : row < e.rows := shaped.fits.lt_of_row? shown
  have width : was.size = e.rowBytes := h.size_row known (row?_eq_some_iff.mpr ⟨old, found, shown⟩)
  have size : (bytes.take was.size).size ≤ e.rowBytes := by
    rw [← width, Array.take, Array.size_extract]
    omega
  refine ⟨⟨rfl, rfl, rfl, ?_⟩, ?_, ?_⟩
  · apply forall₂_set (List.forall₂_same.mpr fun p _ => .refl p)
    intro other same
    obtain rfl := Option.some.inj (found.symm.trans same)
    exact shaped.fits.write_sameButRows bound size
  · intro plane' row' differs
    rw [row?_set found]
    split
    next same =>
      obtain rfl := same
      rw [shaped.fits.row?_write_apart size (differs.resolve_left fun apart => apart rfl), Picture.row?, found,
        Option.bind_some]
    next => rfl
  · obtain ⟨new, now, same, bytewise⟩ := shaped.fits.getElem?_row?_write bound size shown
    refine ⟨was, new, row?_eq_some_iff.mpr ⟨old, found, shown⟩, ?_, same, ?_⟩
    · rw [row?_set found, if_pos rfl, now]
    · intro i inside
      have covers : (bytes.take was.size)[i]? = bytes[i]? := by grind
      rw [bytewise i inside, covers]

theorem Shaped.paste_outcome (hd : dst.Shaped l) (hs : src.Shaped m) :
    if m = l then ∃ out, dst.paste src = .ok (.ok (), out) ∧ out.SameButRows dst
    else ∃ e, dst.paste src = .ok (.error e, dst) := by
  split
  next same =>
    subst same
    obtain ⟨out, pasted, _⟩ := hd.fits.paste hs.fits
    exact ⟨out, pasted, hd.fits.paste_sameButRows hs.fits pasted⟩
  next differs =>
    have misfit : src.layout ≠ dst.layout := by rwa [hd.layout, hs.layout]
    obtain ⟨text, refused⟩ := paste_misfit misfit
    exact ⟨_, refused⟩

theorem Shaped.weave_outcome (hd : dst.Shaped l) (hc : current.Shaped m) (hh : held.Shaped n) (first : FieldParity) :
    if m = l ∧ n = l then ∃ out, dst.weave current held first = .ok (.ok (), out) ∧ out.SameButRows dst
    else ∃ e, dst.weave current held first = .ok (.error e, dst) := by
  split
  next same =>
    obtain ⟨rfl, rfl⟩ := same
    obtain ⟨out, woven, _⟩ := hd.fits.weave hc.fits hh.fits first
    exact ⟨out, woven, hd.fits.weave_sameButRows hc.fits hh.fits first woven⟩
  next differs =>
    have misfits : current.layout ≠ dst.layout ∨ held.layout ≠ dst.layout := by
      rw [hc.layout, hh.layout, hd.layout]
      exact Decidable.not_and_iff_not_or_not.mp differs
    obtain ⟨e, _, refused⟩ := weave_misfit misfits first
    exact ⟨e, refused⟩

theorem Shaped.of_write {ε : Type} {write : Write ε} {answer : Except ε Unit} {alike : Prop} [Decidable alike]
    (h : p.Shaped l)
    (outcome : if alike then ∃ out, write = .ok (.ok (), out) ∧ out.SameButRows p else ∃ e, write = .ok (.error e, p))
    (written : write = .ok (answer, q)) : q.Shaped l := by
  rw [written] at outcome
  split at outcome
  · obtain ⟨out, same, kept⟩ := outcome
    cases same
    exact kept.shaped h
  · obtain ⟨e, same⟩ := outcome
    cases same
    exact h

theorem Reached.shaped (h : Reached l p) : p.Shaped l := by
  induction h with
  | blank l => exact blank_shaped l
  | fill _ value shaped => exact shaped.fill value
  | writeRow _ written shaped => exact (shaped.writeRow written).sameButRows.shaped shaped
  | writePlane _ written shaped => exact shaped.writePlane written
  | paste _ _ pasted shaped source => exact shaped.of_write (shaped.paste_outcome source) pasted
  | weave _ _ _ woven shaped fresh kept => exact shaped.of_write (shaped.weave_outcome fresh kept _) woven

theorem Shaped.row_bytes (h : p.Shaped l) (shown : p.row? plane row = some bytes) :
    ∃ q e, p.planes[plane]? = some q ∧ l.extents[plane]? = some e ∧ bytes.size = e.rowBytes ∧
      ∀ i < e.rowBytes, q.InRow row (row * q.stride + i) ∧ bytes[i]? = q.bytes[row * q.stride + i]? := by
  obtain ⟨e, known, bound⟩ := h.row?_isSome_iff.mp ⟨bytes, shown⟩
  have size := h.size_row known shown
  obtain ⟨q, found, shown⟩ := row?_eq_some_iff.mp shown
  obtain ⟨other, same, shaped⟩ := h.exists_extent found
  obtain rfl := Option.some.inj (known.symm.trans same)
  refine ⟨q, e, found, known, size, ?_⟩
  intro i inside
  rw [shaped.fits.row?_of_lt bound] at shown
  obtain rfl := Option.some.inj shown
  refine ⟨⟨by rwa [shaped.extent], Nat.le_add_right _ _, by rw [shaped.extent]; omega⟩, ?_⟩
  rw [Array.size_extract] at size
  rw [Array.getElem?_extract, if_pos (by omega)]

/-- Making a picture gives a blank one, if it gives any. Whatever is then done to it, its planes keep the extents
of the layout, the least aligned strides and exactly the bytes for these; so there is a row for each that the layout has,
rows have their lengths and lie apart, a row that is written leaves all others and the padding as they were, and copies
between pictures of one layout never leave a plane. -/
theorem reached_keeps_shape :
    (∀ (memory : Memory) (l : Layout) (p : Picture), make memory l = .ok p → p = blank l) ∧
      (∀ l : Layout, ∀ plane ∈ (blank l).planes, ∀ byte ∈ plane.bytes, byte = 0) ∧
      ∀ (l : Layout) (p : Picture), Reached l p →
        p.Shaped l ∧
          (∀ plane row : ℕ,
            ((∃ bytes, p.row? plane row = some bytes) ↔
              ∃ e, l.format.extent? l.width l.height plane = some e ∧ row < e.rows) ∧
            ∀ bytes, p.row? plane row = some bytes →
              ∃ q e, p.planes[plane]? = some q ∧ l.format.extent? l.width l.height plane = some e ∧
                bytes.size = e.rowBytes ∧
                ∀ i < e.rowBytes, q.InRow row (row * q.stride + i) ∧ bytes[i]? = q.bytes[row * q.stride + i]?) ∧
          (∀ q ∈ p.planes, ∀ row i : ℕ, q.InRow row i → i < q.bytes.size ∧ ∀ other, q.InRow other i → other = row) ∧
          (∀ (plane row : ℕ) (bytes : Array UInt8),
            ((∃ q, p.writeRow? plane row bytes = some q) ↔ ∃ old, p.row? plane row = some old) ∧
            ∀ q, p.writeRow? plane row bytes = some q → q.RowWritten p plane row bytes) ∧
          (∀ (m : Layout) (src : Picture), Reached m src →
            if m = l then ∃ out, p.paste src = .ok (.ok (), out) ∧ out.SameButRows p
            else ∃ e, p.paste src = .ok (.error e, p)) ∧
          ∀ (m n : Layout) (current held : Picture) (first : FieldParity), Reached m current → Reached n held →
            if m = l ∧ n = l then ∃ out, p.weave current held first = .ok (.ok (), out) ∧ out.SameButRows p
            else ∃ e, p.weave current held first = .ok (.error e, p) := by
  refine ⟨fun memory l p made => make_eq_ok made, ?_, ?_⟩
  · intro l plane member byte inside
    obtain ⟨e, _, rfl⟩ := List.mem_map.mp member
    exact Array.eq_of_mem_replicate inside
  · intro l p reached
    have shaped := reached.shaped
    refine ⟨shaped, ?_, ?_, ?_, ?_, ?_⟩
    · intro plane row
      rw [← Layout.getElem?_extents]
      exact ⟨shaped.row?_isSome_iff, fun bytes => shaped.row_bytes⟩
    · intro q member row i inside
      obtain ⟨plane, found⟩ := List.getElem?_of_mem member
      obtain ⟨e, _, planeShaped⟩ := shaped.exists_extent found
      exact ⟨planeShaped.lt_size inside, fun other also => planeShaped.row_unique also inside⟩
    · intro plane row bytes
      exact ⟨writeRow?_isSome_iff, fun q => shaped.writeRow⟩
    · intro m src source
      exact shaped.paste_outcome source.shaped
    · intro m n current held first fresh kept
      exact shaped.weave_outcome fresh.shaped kept.shaped first

theorem reached_keeps_shape_odd :
    let l : Layout := ⟨1, 3, .yuv420p⟩
    let gray : Picture := (blank l).fill 7
    (∃ p, make .boundless l = .ok p ∧ p = blank l) ∧ (∃ bytes, gray.row? 1 1 = some bytes ∧ bytes.size = 1) ∧
      (¬∃ bytes, gray.row? 1 2 = some bytes) ∧ (∀ row, (Plane.blank ⟨1, 3⟩).InRow row 32 → row = 1) ∧
      ∃ q, gray.writeRow? 1 1 #[5, 6] = some q ∧ q.RowWritten gray 1 1 #[5, 6] ∧ q.Shaped l ∧
        (∃ out, q.paste gray = .ok (.ok (), out) ∧ out.SameButRows q) ∧
        ∃ e, q.weave gray (blank ⟨1, 2, .gray8⟩) .top = .ok (.error e, q) := by
  intro l gray
  obtain ⟨makes, _, reached⟩ := reached_keeps_shape
  have filled : Reached l gray := .fill (.blank l) 7
  obtain ⟨_, rows, _, writes, _, _⟩ := reached l gray filled
  obtain ⟨_, _, apart, _, _, _⟩ := reached l (blank l) (.blank l)
  have shape : l.format.extent? l.width l.height 1 = some ⟨1, 2⟩ := by decide
  have chroma : ∃ bytes, gray.row? 1 1 = some bytes := (rows 1 1).1.mpr ⟨⟨1, 2⟩, shape, by decide⟩
  obtain ⟨q, written⟩ := (writes 1 1 #[5, 6]).1.mpr chroma
  obtain ⟨shaped, _, _, _, pastes, weaves⟩ := reached l q (.writeRow filled written)
  have made : make .boundless ⟨1, 3, .yuv420p⟩ = .ok (blank ⟨1, 3, .yuv420p⟩) := rfl
  refine ⟨⟨_, made, makes .boundless l _ made⟩, ?_, ?_, ?_, q, written, ?_, shaped, ?_, ?_⟩
  · obtain ⟨bytes, shown⟩ := chroma
    obtain ⟨_, e, _, known, size, _⟩ := (rows 1 1).2 bytes shown
    obtain rfl := Option.some.inj (shape.symm.trans known)
    exact ⟨bytes, shown, size⟩
  · intro beyond
    obtain ⟨e, known, bound⟩ := (rows 1 2).1.mp beyond
    obtain rfl := Option.some.inj (shape.symm.trans known)
    exact absurd bound (by decide)
  · have member : Plane.blank ⟨1, 3⟩ ∈ (blank l).planes := List.mem_map.mpr ⟨⟨1, 3⟩, by decide, rfl⟩
    exact (apart _ member 1 32 ⟨by decide, by decide, by decide⟩).2
  · exact (writes 1 1 #[5, 6]).2 q written
  · have pasted := pastes l gray filled
    rwa [if_pos rfl] at pasted
  · have woven := weaves l ⟨1, 2, .gray8⟩ gray _ .top filled (.blank _)
    rwa [if_neg (by decide)] at woven

end Picture

end InverseTelecine
