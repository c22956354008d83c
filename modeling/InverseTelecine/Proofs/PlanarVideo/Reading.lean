import InverseTelecine.PlanarVideo
import InverseTelecine.Proofs.Media.Pictures
import Mathlib.Algebra.Ring.Nat

namespace InverseTelecine

def Turn.Goes : Turn → Prop
  | upTo count => 0 < count
  | interrupted => True
  | failed _ => False

instance : DecidablePred Turn.Goes
  | .upTo count => inferInstanceAs (Decidable (0 < count))
  | .interrupted => .isTrue True.intro
  | .failed _ => .isFalse id

namespace Source

def Steady (s : Source) : Prop := ∀ turn ∈ s.turns, turn.Goes

instance (s : Source) : Decidable s.Steady := inferInstanceAs (Decidable (∀ turn ∈ s.turns, turn.Goes))

theorem ofBytes_steady (bytes : List UInt8) : (ofBytes bytes).Steady := fun _ member => nomatch member

section split

variable {part whole : Nat} (order : part ≤ whole) (bytes : List UInt8)
include order

theorem take_append_take_drop :
    bytes.take part ++ (bytes.drop part).take (whole - (bytes.take part).length) = bytes.take whole := by
  rw [List.length_take]
  by_cases inside : part ≤ bytes.length
  · rw [Nat.min_eq_left inside, ← List.take_add, Nat.add_sub_cancel' order]
  · have none : bytes.drop part = [] := List.drop_eq_nil_of_le (by omega)
    rw [none, List.take_nil, List.append_nil, List.take_of_length_le (by omega), List.take_of_length_le (by omega)]

theorem drop_drop_take : (bytes.drop part).drop (whole - (bytes.take part).length) = bytes.drop whole := by
  rw [List.length_take]
  by_cases inside : part ≤ bytes.length
  · rw [Nat.min_eq_left inside, List.drop_drop, Nat.add_sub_cancel' order]
  · have none : bytes.drop part = [] := List.drop_eq_nil_of_le (by omega)
    rw [none, List.drop_nil, List.drop_eq_nil_of_le (by omega)]

end split

theorem fill_of_steady {turns : List Turn} (wanted : Nat) (bytes : List UInt8) (steady : Steady ⟨bytes, turns⟩) :
    ∃ left, fill wanted bytes turns = (.ok (bytes.take wanted), ⟨bytes.drop wanted, left⟩) ∧
      ∀ turn ∈ left, turn.Goes := by
  induction turns generalizing wanted bytes with
  | nil => exact ⟨[], rfl, steady⟩
  | cons turn turns ih =>
    have goes := steady turn List.mem_cons_self
    have later : ∀ t ∈ turns, t.Goes := fun t member => steady t (List.mem_cons_of_mem _ member)
    unfold fill
    by_cases full : wanted = 0
    · subst full
      exact ⟨turn :: turns, by rw [if_pos rfl, List.take_zero, List.drop_zero], steady⟩
    · rw [if_neg full]
      cases turn with
      | failed text => exact goes.elim
      | interrupted => exact ih wanted bytes later
      | upTo count =>
        simp only [Turn.Goes] at goes
        by_cases ended : bytes = []
        · subst ended
          exact ⟨turns, by simp, later⟩
        · have got : bytes.take (min count wanted) ≠ [] := by
            rw [ne_eq, List.take_eq_nil_iff]
            rintro (none | none)
            · omega
            · exact ended none
          obtain ⟨left, filled, leftGo⟩ :=
            ih (wanted - (bytes.take (min count wanted)).length) (bytes.drop (min count wanted)) later
          refine ⟨left, ?_, leftGo⟩
          simp only [if_neg got, filled, Except.map, take_append_take_drop (Nat.min_le_right count wanted),
            drop_drop_take (Nat.min_le_right count wanted)]

end Source

def Frame.ofBytes (l : Layout) (base : TimeBase) (index : Nat) (bytes : List UInt8) : Frame :=
  { Frame.blank l base with
    picture := Picture.ofUnpadded l bytes
    pts := .ofTicks (Signed64.truncate index) base }

/-- The first `count` frames in `bytes`, numbered from `index` on. -/
def Frame.decode (l : Layout) (base : TimeBase) (index : Nat) (bytes : List UInt8) (count : Nat) : List Frame :=
  (List.range count).map fun n => ofBytes l base (index + n) ((bytes.drop (n * l.size)).take l.size)

theorem Frame.decode_succ (l : Layout) (base : TimeBase) (index : Nat) (bytes : List UInt8) (count : Nat) :
    decode l base index bytes (count + 1) =
      ofBytes l base index (bytes.take l.size) :: decode l base (index + 1) (bytes.drop l.size) count := by
  simp only [decode, List.range_succ_eq_map, List.map_cons, List.map_map, Function.comp_def, List.drop_drop,
    Nat.zero_mul, List.drop_zero, Nat.add_zero, Nat.succ_mul, Nat.add_comm, Nat.add_left_comm]

namespace FrameReader

variable {r : FrameReader}

theorem next_of_le (steady : r.source.Steady) (positive : 0 < r.layout.size)
    (enough : r.layout.size ≤ r.source.bytes.length) :
    ∃ left, Source.Steady ⟨r.source.bytes.drop r.layout.size, left⟩ ∧ r.next =
      (.ok (some (Frame.ofBytes r.layout r.base r.count (r.source.bytes.take r.layout.size))),
        ⟨⟨r.source.bytes.drop r.layout.size, left⟩, r.layout, r.base, r.count + 1⟩) := by
  obtain ⟨left, filled, go⟩ := Source.fill_of_steady r.layout.size r.source.bytes steady
  have length : (r.source.bytes.take r.layout.size).length = r.layout.size := by
    rw [List.length_take, Nat.min_eq_left enough]
  have nonempty : r.source.bytes.take r.layout.size ≠ [] := List.ne_nil_of_length_pos (by omega)
  refine ⟨left, go, ?_⟩
  simp only [next, filled, if_neg nonempty, length, Nat.lt_irrefl, if_false]
  rfl

theorem next_of_lt (steady : r.source.Steady) (short : r.source.bytes.length < r.layout.size) :
    ∃ left, r.next =
      (if r.source.bytes = [] then .ok none else .error (.truncated r.count r.source.bytes.length r.layout.size),
        ⟨⟨[], left⟩, r.layout, r.base, r.count⟩) := by
  obtain ⟨left, filled, _⟩ := Source.fill_of_steady r.layout.size r.source.bytes steady
  rw [List.take_of_length_le (by omega), List.drop_eq_nil_of_le (by omega)] at filled
  refine ⟨left, ?_⟩
  simp only [next, filled, if_pos short]
  split <;> rfl

theorem framesUpTo_of_steady {fuel : Nat} (steady : r.source.Steady) (positive : 0 < r.layout.size)
    (enough : r.source.bytes.length / r.layout.size < fuel) :
    let whole := r.source.bytes.length / r.layout.size
    let rest := r.source.bytes.length % r.layout.size
    ∃ left, framesUpTo fuel r =
      (Frame.decode r.layout r.base r.count r.source.bytes whole,
        if rest = 0 then none else some (.truncated (r.count + whole) rest r.layout.size),
        ⟨⟨[], left⟩, r.layout, r.base, r.count + whole⟩) := by
  induction fuel generalizing r with
  | zero => exact absurd enough (Nat.not_lt_zero _)
  | succ fuel ih =>
    by_cases more : r.layout.size ≤ r.source.bytes.length
    · obtain ⟨left, steadyLeft, read⟩ := next_of_le steady positive more
      have count := Nat.div_eq_sub_div positive more
      have rest := Nat.mod_eq_sub_mod more
      rw [← List.length_drop] at count rest
      obtain ⟨last, others⟩ := @ih ⟨⟨r.source.bytes.drop r.layout.size, left⟩, r.layout, r.base, r.count + 1⟩
        steadyLeft positive (by simp only; omega)
      refine ⟨last, ?_⟩
      simp only [framesUpTo, read, others, count, rest, Frame.decode_succ, Nat.add_assoc, Nat.add_comm 1]
    · have short := Nat.lt_of_not_le more
      obtain ⟨left, read⟩ := next_of_lt steady short
      refine ⟨left, ?_⟩
      simp only [framesUpTo, read, Nat.div_eq_of_lt short, Nat.mod_eq_of_lt short, List.length_eq_zero_iff]
      by_cases ended : r.source.bytes = []
      · simp only [if_pos ended]
        rfl
      · simp only [if_neg ended]
        rfl

theorem frames_of_steady (steady : r.source.Steady) (positive : 0 < r.layout.size) :
    let whole := r.source.bytes.length / r.layout.size
    let rest := r.source.bytes.length % r.layout.size
    ∃ left, r.frames =
      (Frame.decode r.layout r.base r.count r.source.bytes whole,
        if rest = 0 then none else some (.truncated (r.count + whole) rest r.layout.size),
        ⟨⟨[], left⟩, r.layout, r.base, r.count + whole⟩) :=
  framesUpTo_of_steady steady positive (Nat.lt_succ_of_le (Nat.div_le_self _ _))

end FrameReader

namespace Plane

variable {p : Plane} {e : Extent}

theorem Fits.readRows (h : p.Fits e) (row : Nat) (bytes : List UInt8) (count : Nat) :
    (p.readRows row bytes count).1.Fits e := by
  induction count generalizing p row bytes with
  | zero => exact h
  | succ count ih => exact ih (h.of_size (size_overwrite _ _ _)) _ _

theorem Fits.length_flatten (h : p.Fits e) : (p.rows.flatMap Array.toList).length = e.rowBytes * e.rows := by
  rw [h.rows_eq_map, List.flatMap_map, List.length_flatMap]
  have each : ∀ row ∈ List.range e.rows,
      (p.bytes.extract (row * p.stride) (row * p.stride + e.rowBytes)).toList.length = e.rowBytes := by
    intro row member
    have inside := h.row_end_le (List.mem_range.mp member)
    rw [Array.length_toList, Array.size_extract]
    omega
  rw [List.map_congr_left each, List.map_const', List.sum_replicate_nat, List.length_range, Nat.mul_comm]

end Plane

theorem Layout.size_eq_sum (l : Layout) : l.size = (l.extents.map fun e => e.rowBytes * e.rows).sum := by
  rw [size, ← List.foldl_map, ← List.sum_eq_foldl]

theorem Layout.size_pos {l : Layout} (wide : 0 < l.width) (high : 0 < l.height) : 0 < l.size := by
  have first : l.format.extent l.width l.height 0 ∈ l.extents :=
    List.mem_map_of_mem (List.mem_range.mpr l.format.planes_pos)
  have sample : 0 < l.format.sampleBytes.1 := by cases l.format <;> decide
  rw [l.size_eq_sum, List.sum_pos_iff_exists_pos_nat]
  exact ⟨_, List.mem_map_of_mem first, Nat.mul_pos (Nat.mul_pos wide sample) high⟩

namespace Picture

variable {p : Picture} {l : Layout}

theorem ofUnpadded_fits (l : Layout) (bytes : List UInt8) : (ofUnpadded l bytes).Fits l := by
  refine ⟨rfl, ?_⟩
  have blank := (blank_fits l).planes
  simp only [ofUnpadded, ofPlanes]
  generalize (Picture.blank l).planes = planes, l.extents = extents at blank
  induction blank generalizing bytes with
  | nil => exact .nil
  | cons first _ ih => exact .cons (first.readRows 0 bytes _) (ih _)

theorem unpadded_eq_visible (p : Picture) : p.unpadded = p.visible.flatMap fun rows => rows.flatMap Array.toList := by
  rw [unpadded, visible, List.flatMap_map]

theorem Fits.length_unpadded (h : p.Fits l) : p.unpadded.length = l.size := by
  have planes := h.planes
  rw [unpadded, List.length_flatMap, l.size_eq_sum]
  generalize p.planes = ps, l.extents = es at planes
  induction planes with
  | nil => rfl
  | cons first _ ih => rw [List.map_cons, List.map_cons, List.sum_cons, List.sum_cons, first.length_flatten, ih]

end Picture

namespace Frame

variable {l : Layout}

theorem decode_fits {base : TimeBase} {index count : Nat} {bytes : List UInt8} :
    ∀ f ∈ decode l base index bytes count, f.picture.Fits l := by
  intro f member
  obtain ⟨n, _, rfl⟩ := List.mem_map.mp member
  exact Picture.ofUnpadded_fits l _

theorem length_decode (l : Layout) (base : TimeBase) (index : Nat) (bytes : List UInt8) (count : Nat) :
    (decode l base index bytes count).length = count := by
  rw [decode, List.length_map, List.length_range]

theorem length_unpadded {outs : List Frame} (fits : ∀ f ∈ outs, f.picture.Fits l) :
    (outs.flatMap fun f => f.picture.unpadded).length = outs.length * l.size := by
  rw [List.length_flatMap, List.map_congr_left fun f member => (fits f member).length_unpadded, List.map_const',
    List.sum_replicate_nat]

end Frame

end InverseTelecine
