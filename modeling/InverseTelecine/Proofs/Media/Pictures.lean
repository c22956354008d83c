import InverseTelecine.Proofs.Media.Planes
import Mathlib.Data.List.Forall2

namespace InverseTelecine

/-- The visible rows of a picture, plane by plane. -/
abbrev Visible := List (List (Array UInt8))

namespace Visible

def row? (v : Visible) (plane row : Nat) : Option (Array UInt8) := v[plane]?.bind (·[row]?)

def weaveRows (parity : Nat) (current held : List (Array UInt8)) : List (Array UInt8) :=
  (List.range current.length).map fun row =>
    if row % 2 = parity then current.getD row #[] else held.getD row #[]

def weave (first : FieldParity) (current held : Visible) : Visible :=
  List.zipWith (weaveRows first.firstRow) current held

theorem ext_row? {v w : Visible} (shape : v.map List.length = w.map List.length)
    (same : ∀ plane row, v.row? plane row = w.row? plane row) : v = w := by
  apply List.ext_getElem?
  intro plane
  have length : (v[plane]?).map List.length = (w[plane]?).map List.length := by
    rw [← List.getElem?_map, ← List.getElem?_map, shape]
  have rows := same plane
  cases hv : v[plane]? <;> cases hw : w[plane]? <;> simp only [hv, hw, row?] at length rows ⊢
  · cases length
  · cases length
  · congr 1
    apply List.ext_getElem?
    exact rows

theorem getElem?_weaveRows {parity : Nat} {current held : List (Array UInt8)}
    (same : current.length = held.length) (row : Nat) :
    (weaveRows parity current held)[row]? = if row % 2 = parity then current[row]? else held[row]? := by
  rw [weaveRows, List.getElem?_map]
  by_cases bound : row < current.length
  · rw [List.getElem?_range bound, Option.map_some, List.getD_eq_getElem?_getD, List.getD_eq_getElem?_getD,
      List.getElem?_eq_getElem bound, List.getElem?_eq_getElem (same ▸ bound)]
    split <;> rfl
  · rw [List.getElem?_eq_none (by rw [List.length_range]; omega), List.getElem?_eq_none (by omega),
      List.getElem?_eq_none (by omega)]
    simp

theorem row?_weave (first : FieldParity) {current held : Visible}
    (shape : current.map List.length = held.map List.length) (plane row : Nat) :
    (weave first current held).row? plane row =
      if row % 2 = first.firstRow then current.row? plane row else held.row? plane row := by
  have length : (current[plane]?).map List.length = (held[plane]?).map List.length := by
    rw [← List.getElem?_map, ← List.getElem?_map, shape]
  simp only [row?, weave, List.getElem?_zipWith]
  cases hc : current[plane]? <;> cases hh : held[plane]? <;> simp only [hc, hh] at length ⊢
  · simp
  · cases length
  · cases length
  · simp only [Option.map_some, Option.some.injEq] at length
    exact getElem?_weaveRows length row

end Visible

def Memory.boundless : Memory := ⟨fun _ => true⟩

namespace Picture

/-- The picture has the layout `l`, and its planes have bytes for all rows of it. -/
structure Fits (p : Picture) (l : Layout) : Prop where
  layout : p.layout = l
  planes : List.Forall₂ Plane.Fits p.planes l.extents

variable {p q dst src current held : Picture} {l : Layout}

theorem blank_fits (l : Layout) : (blank l).Fits l where
  layout := rfl
  planes := by
    simp only [blank, ofPlanes, List.forall₂_map_left_iff, List.forall₂_same]
    intro e _
    exact Plane.blank_fits e

theorem makePlanes_eq_ok {memory : Memory} {index : Nat} {es : List Extent} {planes : List Plane}
    (h : makePlanes memory index es = .ok planes) : planes = es.map Plane.blank := by
  induction es generalizing index planes with
  | nil => exact (Except.ok.inj h).symm
  | cons e es ih =>
    cases made : Plane.make memory index e with
    | error cause =>
      rw [makePlanes, made] at h
      cases h
    | ok plane =>
      cases others : makePlanes memory (index + 1) es with
      | error cause =>
        rw [makePlanes, made, others] at h
        cases h
      | ok rest =>
        rw [makePlanes, made, others] at h
        obtain rfl := Except.ok.inj h
        rw [Plane.make_eq_ok made, ih others, List.map_cons]

theorem make_eq_ok {memory : Memory} (h : make memory l = .ok p) : p = blank l := by
  unfold make at h
  cases planes : makePlanes memory 0 l.extents with
  | error cause =>
    rw [planes] at h
    cases h
  | ok ps =>
    rw [planes] at h
    obtain rfl := Except.ok.inj h
    rw [makePlanes_eq_ok planes]
    rfl

theorem Fits.shape (h : p.Fits l) : p.visible.map List.length = l.extents.map Extent.rows := by
  obtain ⟨_, planes⟩ := h
  rw [visible, List.map_map]
  generalize p.planes = ps, l.extents = es at planes
  induction planes with
  | nil => rfl
  | cons head _ ih => rw [List.map_cons, List.map_cons, ih, Function.comp_apply, head.length_rows]

theorem Fits.row?_visible (h : p.Fits l) (plane row : Nat) :
    Visible.row? p.visible plane row = p.row? plane row := by
  simp only [Visible.row?, visible, Picture.row?, List.getElem?_map]
  cases found : p.planes[plane]? with
  | none => rfl
  | some q =>
    obtain ⟨bound, rfl⟩ := List.getElem?_eq_some_iff.mp found
    exact (h.planes.get bound (h.planes.length_eq ▸ bound)).getElem?_rows row

theorem Fits.visible_congr (hp : p.Fits l) (hq : q.Fits l)
    (same : ∀ plane row, p.row? plane row = q.row? plane row) : p.visible = q.visible := by
  apply Visible.ext_row? (hp.shape.trans hq.shape.symm)
  intro plane row
  rw [hp.row?_visible, hq.row?_visible, same]

theorem pastePlanes_fits {dsts srcs : List Plane} {es : List Extent} (hd : List.Forall₂ Plane.Fits dsts es)
    (hs : List.Forall₂ Plane.Fits srcs es) :
    ∃ outs, pastePlanes dsts srcs = .ok outs ∧ List.Forall₂ Plane.Fits outs es ∧
      outs.map Plane.rows = srcs.map Plane.rows := by
  induction hd generalizing srcs with
  | nil => cases hs; exact ⟨[], rfl, .nil, rfl⟩
  | cons first _ ih =>
    cases hs with
    | cons source rest =>
      obtain ⟨out, pasted, fits, rows⟩ := first.paste source
      obtain ⟨outs, others, allFit, allRows⟩ := ih rest
      refine ⟨out :: outs, ?_, .cons fits allFit, ?_⟩
      · rw [pastePlanes, pasted, others]
        rfl
      · rw [List.map_cons, List.map_cons, allRows, fits.rows_congr source rows]

theorem Fits.paste (hd : dst.Fits l) (hs : src.Fits l) :
    ∃ out, dst.paste src = .ok (.ok (), out) ∧ out.Fits l ∧ out.visible = src.visible := by
  obtain ⟨planes, pasted, fits, rows⟩ := pastePlanes_fits hd.planes hs.planes
  refine ⟨{ dst with planes }, ?_, ⟨hd.layout, fits⟩, rows⟩
  rw [Picture.paste, if_neg (by rw [hd.layout, hs.layout]; exact fun differs => differs rfl), pasted]

theorem Fits.requireLayout (hd : dst.Fits l) (hs : src.Fits l) :
    requireLayout dst.layout src.layout = .ok () := by
  rw [requireLayout_eq_ok_iff, hd.layout, hs.layout]

theorem Fits.replaceBy (hd : dst.Fits l) (hs : src.Fits l) :
    ∃ out, dst.replaceBy src = .ok (.ok (), out) ∧ out.Fits l ∧ out.visible = src.visible := by
  obtain ⟨out, pasted, result⟩ := hd.paste hs
  refine ⟨out, ?_, result⟩
  rw [Picture.replaceBy, hd.requireLayout hs, pasted]
  rfl

theorem weavePlanes_fits {parity : Nat} (binary : parity < 2) {dsts currents helds : List Plane}
    {es : List Extent} (hd : List.Forall₂ Plane.Fits dsts es) (hc : List.Forall₂ Plane.Fits currents es)
    (hh : List.Forall₂ Plane.Fits helds es) :
    ∃ outs, weavePlanes parity dsts currents helds = .ok outs ∧ List.Forall₂ Plane.Fits outs es ∧
      outs.map Plane.rows =
        List.zipWith (Visible.weaveRows parity) (currents.map Plane.rows) (helds.map Plane.rows) := by
  induction hd generalizing currents helds with
  | nil => cases hc; cases hh; exact ⟨[], rfl, .nil, rfl⟩
  | cons first _ ih =>
    cases hc with
    | cons now later =>
      cases hh with
      | cons before earlier =>
        obtain ⟨out, woven, fits, rows⟩ := first.weave now before binary
        obtain ⟨outs, others, allFit, allRows⟩ := ih later earlier
        refine ⟨out :: outs, ?_, .cons fits allFit, ?_⟩
        · rw [weavePlanes, woven, others]
          rfl
        · rw [List.map_cons, List.map_cons, List.map_cons, List.zipWith_cons_cons, allRows]
          congr 1
          apply List.ext_getElem?
          intro row
          rw [Visible.getElem?_weaveRows (now.length_rows.trans before.length_rows.symm), fits.getElem?_rows,
            now.getElem?_rows, before.getElem?_rows, rows]

theorem Fits.weave (hd : dst.Fits l) (hc : current.Fits l) (hh : held.Fits l) (first : FieldParity) :
    ∃ out, dst.weave current held first = .ok (.ok (), out) ∧ out.Fits l ∧
      out.visible = Visible.weave first current.visible held.visible := by
  have binary : first.firstRow < 2 := by cases first <;> decide
  obtain ⟨planes, woven, fits, rows⟩ := weavePlanes_fits binary hd.planes hc.planes hh.planes
  refine ⟨{ dst with planes }, ?_, ⟨hd.layout, fits⟩, rows⟩
  rw [Picture.weave, hd.requireLayout hc, hd.requireLayout hh, woven]

end Picture

end InverseTelecine
