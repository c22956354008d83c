import InverseTelecine.Proofs.Media.Pictures
import InverseTelecine.Restorer.Step

namespace InverseTelecine

namespace Plane

/-- Byte `i` lies in no visible row. -/
def Hides (p : Plane) (i : Nat) : Prop :=
  ∀ row < p.extent.rows, i < row * p.stride ∨ row * p.stride + p.extent.rowBytes ≤ i

/-- `out` is `dst` with other bytes in its visible rows, at most. -/
structure SameButRows (out dst : Plane) : Prop where
  extent : out.extent = dst.extent
  stride : out.stride = dst.stride
  size : out.bytes.size = dst.bytes.size
  hidden : ∀ i, dst.Hides i → out.bytes[i]? = dst.bytes[i]?

variable {out half dst src current held : Plane} {e : Extent} {parity : Nat}

theorem SameButRows.refl (p : Plane) : p.SameButRows p := ⟨rfl, rfl, rfl, fun _ _ => rfl⟩

theorem SameButRows.hides (h : half.SameButRows dst) {i : Nat} (hidden : dst.Hides i) : half.Hides i := by
  intro row bound
  rw [h.extent] at bound
  rw [h.extent, h.stride]
  exact hidden row bound

theorem SameButRows.trans (last : out.SameButRows half) (first : half.SameButRows dst) : out.SameButRows dst where
  extent := last.extent.trans first.extent
  stride := last.stride.trans first.stride
  size := last.size.trans first.size
  hidden i hidden := (last.hidden i (first.hides hidden)).trans (first.hidden i hidden)

theorem Fits.takeField_sameButRows (hd : dst.Fits e) (hs : src.Fits e)
    (taken : dst.takeField src parity = .ok out) : out.SameButRows dst := by
  obtain ⟨bytes, copied, result⟩ := hd.takeField_copied hs parity
  rw [copied] at taken
  obtain rfl := Except.ok.inj taken
  refine ⟨rfl, rfl, result.size, ?_⟩
  intro i hidden
  apply result.outside
  intro row more
  -- Row `row` of the field is row `parity + 2 * row` of the plane.
  have apart := hidden (parity + 2 * row) (by rw [hd.extent]; omega)
  rwa [hd.extent, ← place_fieldTrack] at apart

theorem Fits.weave_sameButRows (hd : dst.Fits e) (hc : current.Fits e) (hh : held.Fits e) (binary : parity < 2)
    (woven : dst.weave current held parity = .ok out) : out.SameButRows dst := by
  obtain ⟨half, taken, halfFits, _⟩ := hd.takeField hc parity binary
  rw [Plane.weave, taken] at woven
  exact (halfFits.takeField_sameButRows hh woven).trans (hd.takeField_sameButRows hc taken)

end Plane

/-- What is said of a layout that is not the wanted one. -/
inductive Misfit (wanted given : Layout) : FilterError → Prop where
  | format (differs : given.format ≠ wanted.format) :
    Misfit wanted given (.formatDiffers wanted.format given.format)
  | size (same : given.format = wanted.format) (differs : given.width ≠ wanted.width ∨ given.height ≠ wanted.height) :
    Misfit wanted given (.sizeDiffers wanted.width wanted.height given.width given.height)

theorem requireLayout_misfit {wanted given : Layout} (apart : given ≠ wanted) :
    ∃ e, requireLayout wanted given = .error e ∧ Misfit wanted given e := by
  rw [requireLayout]
  split
  next format => exact ⟨_, rfl, .format (Ne.symm format)⟩
  next format =>
    have same : given.format = wanted.format := (Decidable.not_not.mp format).symm
    split
    next size => exact ⟨_, rfl, .size same (size.imp Ne.symm Ne.symm)⟩
    next size =>
      obtain ⟨width, height⟩ := not_or.mp size
      obtain ⟨w, h, f⟩ := wanted
      obtain ⟨w', h', f'⟩ := given
      simp_all

namespace Picture

/-- `out` is `dst` with other bytes in the visible rows of its planes, at most. -/
structure SameButRows (out dst : Picture) : Prop where
  layout : out.layout = dst.layout
  space : out.space = dst.space
  range : out.range = dst.range
  planes : List.Forall₂ Plane.SameButRows out.planes dst.planes

variable {out dst src current held : Picture} {l : Layout}

theorem weavePlanes_sameButRows {parity : Nat} (binary : parity < 2) {outs dsts currents helds : List Plane}
    {es : List Extent} (hd : List.Forall₂ Plane.Fits dsts es) (hc : List.Forall₂ Plane.Fits currents es)
    (hh : List.Forall₂ Plane.Fits helds es) (woven : weavePlanes parity dsts currents helds = .ok outs) :
    List.Forall₂ Plane.SameButRows outs dsts := by
  induction hd generalizing currents helds outs with
  | nil =>
    cases hc
    obtain rfl := Except.ok.inj woven
    exact .nil
  | cons first dstsFit ih =>
    cases hc with
    | cons now later =>
      cases hh with
      | cons before earlier =>
        obtain ⟨out, head, _⟩ := first.weave now before binary
        obtain ⟨rest, tail, _⟩ := weavePlanes_fits binary dstsFit later earlier
        rw [weavePlanes, head, tail] at woven
        obtain rfl := Except.ok.inj woven
        exact .cons (first.weave_sameButRows now before binary head) (ih later earlier tail)

theorem Fits.weave_sameButRows (hd : dst.Fits l) (hc : current.Fits l) (hh : held.Fits l) (first : FieldParity)
    (woven : dst.weave current held first = .ok (.ok (), out)) : out.SameButRows dst := by
  have binary : first.firstRow < 2 := by cases first <;> decide
  obtain ⟨planes, routed, _⟩ := weavePlanes_fits binary hd.planes hc.planes hh.planes
  rw [Picture.weave, hd.requireLayout hc, hd.requireLayout hh, routed] at woven
  obtain rfl := congrArg Prod.snd (Except.ok.inj woven)
  exact ⟨rfl, rfl, rfl, weavePlanes_sameButRows binary hd.planes hc.planes hh.planes routed⟩

theorem Fits.row?_weave (hd : dst.Fits l) (hc : current.Fits l) (hh : held.Fits l) (first : FieldParity)
    (woven : dst.weave current held first = .ok (.ok (), out)) (plane row : Nat) :
    out.row? plane row = (if row % 2 = first.firstRow then current else held).row? plane row := by
  obtain ⟨result, same, fits, shown⟩ := hd.weave hc hh first
  obtain rfl := congrArg Prod.snd (Except.ok.inj (woven.symm.trans same))
  rw [← fits.row?_visible, shown, Visible.row?_weave first (hc.shape.trans hh.shape.symm), hc.row?_visible,
    hh.row?_visible]
  split <;> rfl

theorem Fits.exists_row (h : dst.Fits l) {plane row : Nat} {e : Extent} (shape : l.extents[plane]? = some e)
    (bound : row < e.rows) : ∃ bytes, bytes.size = e.rowBytes ∧ dst.row? plane row = some bytes := by
  obtain ⟨p, found, fits⟩ : ∃ p, dst.planes[plane]? = some p ∧ p.Fits e := by
    obtain ⟨inside, rfl⟩ := List.getElem?_eq_some_iff.mp shape
    have present : plane < dst.planes.length := h.planes.length_eq ▸ inside
    exact ⟨_, List.getElem?_eq_getElem present, h.planes.get present inside⟩
  refine ⟨p.bytes.extract (row * p.stride) (row * p.stride + e.rowBytes), ?_, ?_⟩
  · have last := fits.row_end_le bound
    rw [Array.size_extract]
    omega
  · rw [Picture.row?, found]
    exact fits.row?_of_lt bound

theorem weave_misfit (differs : current.layout ≠ dst.layout ∨ held.layout ≠ dst.layout) (first : FieldParity) :
    ∃ e, Misfit dst.layout (if current.layout = dst.layout then held else current).layout e ∧
      dst.weave current held first = .ok (.error e, dst) := by
  by_cases same : current.layout = dst.layout
  · have later : held.layout ≠ dst.layout := differs.resolve_left (not_not_intro same)
    obtain ⟨e, refused, misfit⟩ := requireLayout_misfit later
    refine ⟨e, by rwa [if_pos same], ?_⟩
    rw [weave, same, (requireLayout_eq_ok_iff _ _).mpr rfl, refused]
  · obtain ⟨e, refused, misfit⟩ := requireLayout_misfit same
    refine ⟨e, by rwa [if_neg same], ?_⟩
    rw [weave, refused]

/-- Weaving pictures of one layout gives every row of every plane from the source of its field, and keeps all else.
The first source of another layout is refused, and the picture stays as it was, as does a slot that holds it. -/
theorem weave_exact (dst current held : Picture) (first : FieldParity) :
    (∀ l, dst.Fits l → current.Fits l → held.Fits l →
      ∃ out, dst.weave current held first = .ok (.ok (), out) ∧ out.SameButRows dst ∧
        ∀ plane e, l.extents[plane]? = some e → ∀ row < e.rows,
          ∃ bytes, bytes.size = e.rowBytes ∧ out.row? plane row = some bytes ∧
            (if row % 2 = first.firstRow then current else held).row? plane row = some bytes) ∧
      (current.layout ≠ dst.layout ∨ held.layout ≠ dst.layout →
        ∃ e, Misfit dst.layout (if current.layout = dst.layout then held else current).layout e ∧
          dst.weave current held first = .ok (.error e, dst) ∧
          ∀ (r : Restorer) (index : Nat), r.slots[index]? = some dst →
            Restorer.fillSlot index (fun _ slot => slot.weave current held first) r = .error (.error e) r) := by
  constructor
  · intro l hd hc hh
    obtain ⟨out, woven, fits, _⟩ := hd.weave hc hh first
    refine ⟨out, woven, hd.weave_sameButRows hc hh first woven, ?_⟩
    intro plane e shape row bound
    obtain ⟨bytes, size, shown⟩ := fits.exists_row shape bound
    refine ⟨bytes, size, shown, ?_⟩
    rw [← hd.row?_weave hc hh first woven]
    exact shown
  · intro differs
    obtain ⟨e, misfit, refused⟩ := weave_misfit differs first
    refine ⟨e, misfit, refused, ?_⟩
    intro r index slot
    obtain ⟨inside, held⟩ := List.getElem?_eq_some_iff.mp slot
    have same : r.slots.set index dst = r.slots := by rw [← held, List.set_getElem_self]
    simp only [Restorer.fillSlot, slot, refused, same]

def ofOddRows (luma chroma padding : UInt8) : Picture :=
  .ofPlanes ⟨1, 3, .yuv420p⟩
    [⟨#[luma, padding, luma, padding, luma, padding], 2, ⟨1, 3⟩⟩, ⟨#[chroma, padding, chroma, padding], 2, ⟨1, 2⟩⟩,
      ⟨#[chroma, padding, chroma, padding], 2, ⟨1, 2⟩⟩]

theorem ofOddRows_fits (luma chroma padding : UInt8) : (ofOddRows luma chroma padding).Fits ⟨1, 3, .yuv420p⟩ where
  layout := rfl
  planes := by
    refine .cons ⟨rfl, ?_, ?_⟩ (.cons ⟨rfl, ?_, ?_⟩ (.cons ⟨rfl, ?_, ?_⟩ .nil))
    all_goals exact Nat.le_of_ble_eq_true rfl

theorem weave_exact_odd :
    (∃ out, (ofOddRows 0 1 99).weave (ofOddRows 2 3 98) (ofOddRows 4 5 97) .top = .ok (.ok (), out) ∧
      out.SameButRows (ofOddRows 0 1 99) ∧ out.row? 0 2 = some #[2] ∧ out.row? 1 1 = some #[5]) ∧
      (ofOddRows 0 1 99).weave (ofOddRows 2 3 98) (blank ⟨1, 3, .gray8⟩) .top =
        .ok (.error (.formatDiffers .yuv420p .gray8), ofOddRows 0 1 99) := by
  constructor
  · obtain ⟨out, woven, keeps, shows⟩ := (weave_exact (ofOddRows 0 1 99) (ofOddRows 2 3 98) (ofOddRows 4 5 97) .top).1
      _ (ofOddRows_fits 0 1 99) (ofOddRows_fits 2 3 98) (ofOddRows_fits 4 5 97)
    refine ⟨out, woven, keeps, ?_, ?_⟩
    · obtain ⟨bytes, _, shown, source⟩ := shows 0 ⟨1, 3⟩ rfl 2 (by decide)
      rw [shown, ← source]
      decide
    · obtain ⟨bytes, _, shown, source⟩ := shows 1 ⟨1, 2⟩ rfl 1 (by decide)
      rw [shown, ← source]
      decide
  · obtain ⟨e, misfit, refused, _⟩ := (weave_exact (ofOddRows 0 1 99) (ofOddRows 2 3 98) (blank ⟨1, 3, .gray8⟩) .top).2
      (.inr (by decide))
    rw [refused]
    cases misfit with
    | format _ => rfl
    | size same _ => cases same

end Picture

end InverseTelecine
