import InverseTelecine.Proofs.PlanarVideo.Reading
import Mathlib.Data.List.Flatten

namespace InverseTelecine

theorem flatMap_chunks {α : Type} (items : List α) (size count : Nat) :
    ((List.range count).flatMap fun n => (items.drop (n * size)).take size) = items.take (count * size) := by
  induction count with
  | zero => rw [Nat.zero_mul, List.take_zero, List.range_zero, List.flatMap_nil]
  | succ count ih =>
    rw [List.range_succ, List.flatMap_append, ih, List.flatMap_singleton, ← List.take_add, Nat.succ_mul]

namespace Plane

variable {p : Plane} {e : Extent}

theorem Fits.readRows_spec (h : p.Fits e) {row count : Nat} (inside : row + count ≤ e.rows) {bytes : List UInt8}
    (enough : count * e.rowBytes ≤ bytes.length) :
    (p.readRows row bytes count).2 = bytes.drop (count * e.rowBytes) ∧
      ∀ other < row + count, (p.readRows row bytes count).1.row? other =
        if row ≤ other then some ((bytes.drop ((other - row) * e.rowBytes)).take e.rowBytes).toArray
        else p.row? other := by
  induction count generalizing p row bytes with
  | zero =>
    refine ⟨by rw [Nat.zero_mul, List.drop_zero]; rfl, ?_⟩
    intro other below
    rw [if_neg (by omega)]
    rfl
  | succ count ih =>
    rw [Nat.succ_mul] at enough
    have size : (bytes.take e.rowBytes).toArray.size = e.rowBytes := by
      rw [List.size_toArray, List.length_take]
      omega
    have rest : count * e.rowBytes ≤ (bytes.drop e.rowBytes).length := by
      rw [List.length_drop]
      omega
    have first := h.row?_write (show row < e.rows by omega) size
    obtain ⟨left, rows⟩ := ih (h.write (row * p.stride) (bytes.take e.rowBytes).toArray)
      (show row + 1 + count ≤ e.rows by omega) rest
    simp only [Plane.readRows, h.extent]
    refine ⟨by rw [left, List.drop_drop, Nat.succ_mul, Nat.add_comm], ?_⟩
    intro other below
    rw [rows other (by omega)]
    rcases Nat.lt_trichotomy other row with before | rfl | after
    · rw [if_neg (by omega), if_neg (by omega), first, if_neg (by omega)]
    · rw [if_neg (by omega), if_pos (Nat.le_refl _), first, if_pos rfl, Nat.sub_self, Nat.zero_mul, List.drop_zero]
    · obtain ⟨gap, rfl⟩ := Nat.exists_eq_add_of_lt after
      rw [if_pos (by omega), if_pos (by omega), List.drop_drop, show row + gap + 1 - row = gap + 1 by omega,
        show row + gap + 1 - (row + 1) = gap by omega, Nat.succ_mul, Nat.add_comm e.rowBytes]

theorem Fits.readRows_all (h : p.Fits e) {bytes : List UInt8} (enough : e.rowBytes * e.rows ≤ bytes.length) :
    (p.readRows 0 bytes e.rows).1.rows.flatMap Array.toList = bytes.take (e.rowBytes * e.rows) ∧
      (p.readRows 0 bytes e.rows).2 = bytes.drop (e.rowBytes * e.rows) := by
  rw [Nat.mul_comm] at enough ⊢
  obtain ⟨left, read⟩ := h.readRows_spec (show 0 + e.rows ≤ e.rows by omega) enough
  have fits := h.readRows 0 bytes e.rows
  have rows : (p.readRows 0 bytes e.rows).1.rows =
      (List.range e.rows).map fun n => ((bytes.drop (n * e.rowBytes)).take e.rowBytes).toArray := by
    apply List.ext_getElem?
    intro row
    rw [fits.getElem?_rows, List.getElem?_map]
    by_cases bound : row < e.rows
    · rw [read row (by omega), if_pos (Nat.zero_le row), Nat.sub_zero, List.getElem?_range bound, Option.map_some]
    · rw [fits.row?_of_ge (by omega), List.getElem?_eq_none (by rw [List.length_range]; omega), Option.map_none]
  rw [rows, List.flatMap_map, ← flatMap_chunks]
  exact ⟨rfl, left⟩

theorem Fits.size_of_mem_rows (h : p.Fits e) {row : Array UInt8} (member : row ∈ p.rows) : row.size = e.rowBytes := by
  rw [h.rows_eq_map] at member
  obtain ⟨index, found, rfl⟩ := List.mem_map.mp member
  have inside := h.row_end_le (List.mem_range.mp found)
  rw [Array.size_extract]
  omega

end Plane

namespace Picture

variable {p q : Picture} {l : Layout}

theorem unpadded_readPlanes {planes : List Plane} {es : List Extent} (fits : List.Forall₂ Plane.Fits planes es)
    {bytes : List UInt8} (enough : (es.map fun e => e.rowBytes * e.rows).sum ≤ bytes.length) :
    (readPlanes planes bytes).flatMap (fun plane => plane.rows.flatMap Array.toList) =
      bytes.take (es.map fun e => e.rowBytes * e.rows).sum := by
  induction fits generalizing bytes with
  | nil => rw [List.map_nil, List.sum_nil, List.take_zero]; rfl
  | @cons plane e planes es first _ ih =>
    rw [List.map_cons, List.sum_cons] at enough ⊢
    obtain ⟨own, left⟩ := first.readRows_all (show e.rowBytes * e.rows ≤ bytes.length by omega)
    have rest : (es.map fun e => e.rowBytes * e.rows).sum ≤ (bytes.drop (e.rowBytes * e.rows)).length := by
      rw [List.length_drop]
      omega
    simp only [readPlanes, first.extent, List.flatMap_cons]
    rw [own, left, ih rest, List.take_add]

theorem unpadded_ofUnpadded {bytes : List UInt8} (length : bytes.length = l.size) :
    (ofUnpadded l bytes).unpadded = bytes := by
  rw [l.size_eq_sum] at length
  have read := unpadded_readPlanes (blank_fits l).planes (Nat.le_of_eq length.symm)
  rw [← length, List.take_length] at read
  exact read

theorem Fits.map_size_visible (h : p.Fits l) :
    p.visible.map (List.map Array.size) = l.extents.map fun e => List.replicate e.rows e.rowBytes := by
  have planes := h.planes
  rw [visible, List.map_map]
  generalize p.planes = ps, l.extents = es at planes
  induction planes with
  | nil => rfl
  | cons first _ ih =>
    rw [List.map_cons, List.map_cons, ih, Function.comp_apply,
      List.map_congr_left fun row member => first.size_of_mem_rows member, List.map_const', first.length_rows]

theorem Fits.visible_of_unpadded (hp : p.Fits l) (hq : q.Fits l) (same : p.unpadded = q.unpadded) :
    p.visible = q.visible := by
  have bytes : ∀ r : Picture, r.unpadded = (r.visible.flatten.map Array.toList).flatten := by
    intro r
    rw [unpadded_eq_visible, List.map_flatten, List.flatten_flatten, List.map_map, List.flatMap_def]
    rfl
  have sizes : p.visible.flatten.map Array.size = q.visible.flatten.map Array.size := by
    rw [List.map_flatten, List.map_flatten, hp.map_size_visible, hq.map_size_visible]
  have rows : p.visible.flatten = q.visible.flatten := by
    rw [bytes, bytes] at same
    have lengths : (p.visible.flatten.map Array.toList).map List.length =
        (q.visible.flatten.map Array.toList).map List.length := by
      simpa only [List.map_map, Function.comp_def, Array.length_toList] using sizes
    exact List.map_injective_iff.mpr (fun _ _ => Array.toList_inj.mp) (List.eq_iff_flatten_eq.mpr ⟨same, lengths⟩)
  exact List.eq_iff_flatten_eq.mpr ⟨rows, hp.shape.trans hq.shape.symm⟩

end Picture

namespace Frame

variable {l : Layout}

theorem getElem?_decode {base : TimeBase} {bytes : List UInt8} {count n : Nat} {f : Frame}
    (read : (decode l base 0 bytes count)[n]? = some f) :
    f.layout = l ∧ f.pts = .ofTicks (Signed64.truncate n) base ∧ (n ≤ Signed64.greatest → f.pts.ticks = some (n : ℤ)) := by
  rw [decode, List.getElem?_map] at read
  obtain ⟨index, found, rfl⟩ := Option.map_eq_some_iff.mp read
  obtain ⟨_, rfl⟩ := List.getElem?_eq_some_iff.mp found
  rw [List.getElem_range, Nat.zero_add]
  refine ⟨rfl, rfl, ?_⟩
  intro bound
  have fits : Signed64.Fits n := ⟨by simp only [Signed64.least]; omega, bound⟩
  have defined : (n : ℤ) ≠ Timestamp.reserved := by
    simp only [Timestamp.reserved, Signed64.least]
    omega
  simp only [ofBytes, Signed64.truncate_of_fits fits]
  exact Timestamp.ofTicks_of_ne defined base

theorem unpadded_decode (base : TimeBase) (index : Nat) {bytes : List UInt8} {count : Nat}
    (enough : count * l.size ≤ bytes.length) :
    (decode l base index bytes count).flatMap (fun f => f.picture.unpadded) = bytes.take (count * l.size) := by
  have each : ∀ n ∈ List.range count,
      (ofBytes l base (index + n) ((bytes.drop (n * l.size)).take l.size)).picture.unpadded =
        (bytes.drop (n * l.size)).take l.size := by
    intro n member
    have order : (n + 1) * l.size ≤ count * l.size := Nat.mul_le_mul_right _ (List.mem_range.mp member)
    rw [Nat.succ_mul] at order
    apply Picture.unpadded_ofUnpadded
    rw [List.length_take, List.length_drop]
    omega
  rw [decode, List.flatMap_map, List.flatMap_def, List.map_congr_left each, ← List.flatMap_def, flatMap_chunks]

theorem visible_decode (base : TimeBase) (index : Nat) {outs : List Frame} (fits : ∀ f ∈ outs, f.picture.Fits l) :
    (decode l base index (outs.flatMap fun f => f.picture.unpadded) outs.length).map (·.picture.visible) =
      outs.map (·.picture.visible) := by
  induction outs generalizing index with
  | nil => rfl
  | cons f outs ih =>
    rw [List.forall_mem_cons] at fits
    have length := fits.1.length_unpadded
    have same : (Picture.ofUnpadded l f.picture.unpadded).visible = f.picture.visible :=
      (Picture.ofUnpadded_fits l _).visible_of_unpadded fits.1 (Picture.unpadded_ofUnpadded length)
    rw [List.length_cons, decode_succ, List.flatMap_cons, List.take_left' length, List.drop_left' length,
      List.map_cons, List.map_cons, ih _ fits.2, ← same]
    rfl

end Frame

namespace FrameReader

/-- However the bytes are handed out, they are read as the frames that give them back when they are written, and the
bytes left over are reported; and frames that were written are read as frames that show the same. -/
theorem reading_inverts_writing {l : Layout} (positive : 0 < l.size) (base : TimeBase) {source : Source}
    (steady : source.Steady) :
    (∀ whole rest, source.bytes.length = whole * l.size + rest → rest < l.size →
      ∃ frames last, (new source l base).frames =
          (frames, if rest = 0 then none else some (.truncated whole rest l.size), last) ∧
        last.count = whole ∧ frames.length = whole ∧
        (∀ (n : Nat) (f : Frame), frames[n]? = some f →
          f.layout = l ∧ f.pts = .ofTicks (Signed64.truncate n) base ∧
            (n ≤ Signed64.greatest → f.pts.ticks = some (n : ℤ))) ∧
        (frames.flatMap fun f => f.picture.unpadded) = source.bytes.take (whole * l.size)) ∧
      ∀ outs : List Frame, (∀ f ∈ outs, f.picture.Fits l) →
        source.bytes = (outs.flatMap fun f => f.picture.unpadded) →
          ∃ frames last, (new source l base).frames = (frames, none, last) ∧ last.count = outs.length ∧
            frames.map (·.picture.visible) = outs.map (·.picture.visible) := by
  obtain ⟨left, read⟩ := frames_of_steady (r := new source l base) steady positive
  simp only [new, Nat.zero_add] at read
  constructor
  · intro whole rest length short
    have quotient : source.bytes.length / l.size = whole := by
      rw [length, Nat.mul_comm, Nat.mul_add_div positive, Nat.div_eq_of_lt short, Nat.add_zero]
    have remainder : source.bytes.length % l.size = rest := by
      rw [length, Nat.mul_comm, Nat.mul_add_mod, Nat.mod_eq_of_lt short]
    rw [quotient, remainder] at read
    exact ⟨_, _, read, rfl, Frame.length_decode _ _ _ _ _, fun _ _ => Frame.getElem?_decode,
      Frame.unpadded_decode base 0 (by omega)⟩
  · intro outs fits written
    have length := Frame.length_unpadded fits
    rw [written, length, Nat.mul_div_cancel _ positive, Nat.mul_mod_left, if_pos rfl] at read
    have frames : (new source l base).frames =
        (Frame.decode l base 0 (outs.flatMap fun f => f.picture.unpadded) outs.length, none,
          ⟨⟨[], left⟩, l, base, outs.length⟩) := by
      simp only [new]
      exact read
    exact ⟨_, _, frames, rfl, Frame.visible_decode base 0 fits⟩

theorem reading_inverts_writing_column :
    let l : Layout := ⟨1, 2, .gray8⟩
    let turns : List Turn := [.upTo 1, .interrupted, .upTo 3]
    let out := Frame.ofPicture (.ofPlanes l [⟨#[7, 200, 8, 201], 2, ⟨1, 2⟩⟩])
    (∃ frames last, (new ⟨[0, 1, 2, 3, 9], turns⟩ l .mpeg).frames = (frames, some (.truncated 2 1 2), last) ∧
      last.count = 2 ∧ frames.length = 2 ∧ (frames.flatMap fun f => f.picture.unpadded) = [0, 1, 2, 3]) ∧
      ∃ frames last, (new ⟨[7, 8], turns⟩ l .mpeg).frames = (frames, none, last) ∧ last.count = 1 ∧
        frames.map (·.picture.visible) = [out.picture.visible] := by
  intro l turns out
  have positive : 0 < l.size := by decide
  have steady : ∀ bytes, Source.Steady ⟨bytes, turns⟩ := fun _ => by simp only [Source.Steady, turns]; decide
  have fits : ∀ f ∈ [out], f.picture.Fits l := by
    intro f member
    rw [List.mem_singleton.mp member]
    exact ⟨rfl, .cons ⟨rfl, by decide, by decide⟩ .nil⟩
  constructor
  · obtain ⟨frames, last, read, count, length, _, written⟩ :=
      (reading_inverts_writing positive .mpeg (steady [0, 1, 2, 3, 9])).1 2 1 rfl (by decide)
    exact ⟨frames, last, read, count, length, written⟩
  · exact (reading_inverts_writing positive .mpeg (steady [7, 8])).2 [out] fits rfl

end FrameReader

end InverseTelecine
