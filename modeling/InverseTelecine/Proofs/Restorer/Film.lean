import InverseTelecine.Proofs.Restorer.Realignment

namespace InverseTelecine

def Owns (len : Nat → Nat) (j field : Nat) : Prop := slotStart len j ≤ field ∧ field < slotStart len (j + 1)

/-- The picture has the rows of the first field from the original that owns field `2 * i`, and its other
rows from the one that owns the field after that. -/
def Telecined (first : FieldParity) (len : Nat → Nat) (film : Nat → Picture) (i : Nat) (input : Picture) : Prop :=
  ∃ a b, Owns len a (2 * i) ∧ Owns len b (2 * i + 1) ∧
    ∀ plane row, input.row? plane row = (if row % 2 = first.firstRow then film a else film b).row? plane row

def TelecinedFrom (first : FieldParity) (len : Nat → Nat) (film : Nat → Picture) (start : Nat)
    (inputs : List Frame) : Prop :=
  ∀ i (inside : i < inputs.length), Telecined first len film (start + i) inputs[i].picture

theorem Owns.unique {len : Nat → Nat} {a b field : Nat} (left : Owns len a field) (right : Owns len b field) :
    a = b := by
  obtain ⟨leftStart, leftEnd⟩ := left
  obtain ⟨rightStart, rightEnd⟩ := right
  rcases Nat.lt_trichotomy a b with before | same | after
  · have order : slotStart len (a + 1) ≤ slotStart len b := slotStart_mono len before
    omega
  · exact same
  · have order : slotStart len (b + 1) ≤ slotStart len a := slotStart_mono len after
    omega

/-- What is shown of a film from field `2 * start` on, where slot `k` is the first to start there or later:
the originals from `k` up to `count`, and before them the one that was cut, if two of its fields or more are
left, or the first input as it is, if one is. -/
def restored (len : Nat → Nat) (film : Nat → Picture) (start k count : Nat) (input : Visible) : List Visible :=
  let originals := fun a => (List.range' a (count - a)).map fun j => (film j).visible
  match slotStart len k - 2 * start with
  | 0 => originals k
  | 1 => input :: originals k
  | _ => originals (k - 1)

namespace Restorer

section slot

variable {first : FieldParity} {len : Nat → Nat} {film : Nat → Picture} {l : Layout} {start : Nat}
  {inputs : List Frame}

theorem visibleAt_eq {i : Nat} (inside : i < inputs.length) : visibleAt inputs i = inputs[i].picture.visible := by
  rw [visibleAt, List.getD_eq_getElem _ _ (by rw [List.length_map]; exact inside), List.getElem_map]

theorem slotPicture_original (filmFits : ∀ j, (film j).Fits l) (fits : ∀ f ∈ inputs, f.picture.Fits l)
    (telecined : TelecinedFrom first len film start inputs) {a field fields : Nat}
    (owns : Owns len a (2 * start + field)) (ownsNext : Owns len a (2 * start + field + 1)) (two : 2 ≤ fields)
    (arrived : field + 1 < 2 * inputs.length) :
    slotPicture first (visibleAt inputs) field fields = (film a).visible := by
  -- Two consecutive fields are those of one input, or the second of one and the first of the next.
  obtain ⟨i, even | odd⟩ : ∃ i, field = 2 * i ∨ field = 2 * i + 1 := ⟨field / 2, by omega⟩
  · subst even
    have inside : i < inputs.length := by omega
    obtain ⟨b, c, ownsFirst, ownsOther, rows⟩ := telecined i inside
    rw [Nat.mul_add] at ownsFirst ownsOther
    obtain rfl := ownsFirst.unique owns
    obtain rfl := ownsOther.unique ownsNext
    rw [slotPicture_even, visibleAt_eq inside]
    apply (fits _ (List.getElem_mem inside)).visible_congr (filmFits _)
    intro plane row
    rw [rows, ite_self]
  · subst odd
    have inside : i + 1 < inputs.length := by omega
    have insideBefore : i < inputs.length := by omega
    obtain ⟨b, _, ownsFirst, _, rows⟩ := telecined (i + 1) inside
    obtain ⟨_, c, _, ownsOther, rowsBefore⟩ := telecined i insideBefore
    rw [show 2 * (start + (i + 1)) = 2 * start + (2 * i + 1) + 1 by omega] at ownsFirst
    rw [show 2 * (start + i) + 1 = 2 * start + (2 * i + 1) by omega] at ownsOther
    obtain rfl := ownsFirst.unique ownsNext
    obtain rfl := ownsOther.unique owns
    have currentFits := fits _ (List.getElem_mem inside)
    have heldFits := fits _ (List.getElem_mem insideBefore)
    rw [slotPicture_odd _ _ _ two, visibleAt_eq inside, visibleAt_eq insideBefore]
    obtain ⟨woven, _, wovenFits, shown⟩ := currentFits.weave currentFits heldFits first
    rw [← shown]
    apply wovenFits.visible_congr (filmFits _)
    intro plane row
    rw [← wovenFits.row?_visible, shown, Visible.row?_weave first (currentFits.shape.trans heldFits.shape.symm),
      currentFits.row?_visible, heldFits.row?_visible, rows, rowsBefore]
    split <;> rfl

end slot

section cut

variable {digits : List Nat}

theorem nonzeroFrom_of_two_le (long : ∀ d ∈ digits, 2 ≤ d) : nonzeroFrom digits 0 = digits :=
  nonzeroFrom_of_pos fun d member => Nat.lt_of_lt_of_le Nat.zero_lt_two (long d member)

theorem getLast?_of_two_le (long : ∀ d ∈ digits, 2 ≤ d) : digits.getLast? ≠ some 0 :=
  getLast?_of_pos fun d member => Nat.lt_of_lt_of_le Nat.zero_lt_two (long d member)

/-- The inputs of a film telecined by `digits` from input `start` on, where original `k` is the first to
start there or later. -/
structure CutFilm (first : FieldParity) (digits : List Nat) (film : Nat → Picture) (l : Layout) (start k : Nat)
    (inputs : List Frame) : Prop where
  long : ∀ d ∈ digits, 2 ≤ d
  inside : start < Cadence.fieldCount digits
  filmFits : ∀ j, (film j).Fits l
  fits : ∀ f ∈ inputs, f.picture.Fits l
  some : 0 < inputs.length
  telecined : TelecinedFrom first (cyclic digits) film start inputs
  least : IsLeast {j | 2 * start ≤ slotStart (cyclic digits) j} k

namespace CutFilm

variable {first : FieldParity} {film : Nat → Picture} {l : Layout} {start k : Nat} {inputs : List Frame}

theorem two_le (h : CutFilm first digits film l start k inputs) (i : Nat) : 2 ≤ cyclic digits i := by
  exact h.long _ (cyclic_mem (Cadence.ne_nil_of_lt h.inside) i)

theorem positive (h : CutFilm first digits film l start k inputs) (i : Nat) : 0 < cyclic digits i :=
  Nat.lt_of_lt_of_le Nat.zero_lt_two (h.two_le i)

theorem least_nonzero (h : CutFilm first digits film l start k inputs) :
    IsLeast {j | 2 * start ≤ slotStart (cyclic (nonzeroFrom digits 0)) j} k := by
  rw [nonzeroFrom_of_two_le h.long]
  exact h.least

theorem slotShown_behind (h : CutFilm first digits film l start k inputs) {j : Nat}
    (arrived : slotStart (cyclic digits) (k + j) + 2 ≤ 2 * (start + inputs.length)) :
    slotShown first inputs (Cadence.cutFields digits start) (Cadence.cutSlots digits start + j) =
      (film (k + j)).visible := by
  have two := h.two_le (k + j)
  have place := Cadence.slotStart_cutFields h.inside h.least_nonzero j
  have fields := Cadence.cutFields_add h.inside h.least_nonzero j
  rw [nonzeroFrom_of_two_le h.long] at place fields
  have ends := slotStart_succ (cyclic digits) (k + j)
  rw [slotShown, fields]
  apply slotPicture_original h.filmFits h.fits h.telecined ⟨?_, ?_⟩ ⟨?_, ?_⟩ two
  all_goals omega

theorem starts_before (h : CutFilm first digits film l start k inputs)
    (left : 2 * start < slotStart (cyclic digits) k) : 0 < k ∧ slotStart (cyclic digits) (k - 1) < 2 * start := by
  have late : 0 < k := by
    rcases Nat.eq_zero_or_pos k with zero | late
    · rw [zero, slotStart_zero] at left
      omega
    · exact late
  refine ⟨late, ?_⟩
  rcases Nat.lt_or_ge (slotStart (cyclic digits) (k - 1)) (2 * start) with before | reached
  · exact before
  · have order : k ≤ k - 1 := h.least.2 reached
    omega

theorem slotShown_first (h : CutFilm first digits film l start k inputs)
    (left : 2 * start + 2 ≤ slotStart (cyclic digits) k) :
    slotShown first inputs (Cadence.cutFields digits start) 0 = (film (k - 1)).visible := by
  have carried := (Cadence.phaseAt_least h.inside h.least_nonzero).1
  rw [nonzeroFrom_of_two_le h.long] at carried
  obtain ⟨late, before⟩ := h.starts_before (by omega)
  have next : k - 1 + 1 = k := by omega
  have some := h.some
  rw [slotShown, slotStart_zero, Cadence.cutFields, slotFields, if_neg (by omega), if_pos rfl]
  apply slotPicture_original h.filmFits h.fits h.telecined ⟨?_, ?_⟩ ⟨?_, ?_⟩
  all_goals first | rw [next]; omega | omega

theorem slots_behind (h : CutFilm first digits film l start k inputs) {count : Nat}
    (due : ∀ j, j < count ↔ slotStart (cyclic digits) j + 2 ≤ 2 * (start + inputs.length)) :
    (List.range (count - k)).map (fun j => slotShown first inputs (Cadence.cutFields digits start)
        (Cadence.cutSlots digits start + j)) =
      (List.range' k (count - k)).map fun j => (film j).visible := by
  rw [List.range'_eq_map_range, List.map_map]
  apply List.map_congr_left
  intro j member
  have here := List.mem_range.mp member
  exact h.slotShown_behind ((due (k + j)).mp (by omega))

theorem slots_split (h : CutFilm first digits film l start k inputs) {count : Nat}
    (due : ∀ j, j < count ↔ slotStart (cyclic digits) j + 2 ≤ 2 * (start + inputs.length)) :
    (List.range (slotsBefore (Cadence.cutFields digits start) (2 * inputs.length - 1))).map
        (slotShown first inputs (Cadence.cutFields digits start)) =
      (List.range (if 2 * start < slotStart (cyclic digits) k then 1 else 0)).map
          (slotShown first inputs (Cadence.cutFields digits start)) ++
        (List.range' k (count - k)).map fun j => (film j).visible := by
  have some := h.some
  have last := getLast?_of_two_le h.long
  have slots := Cadence.cutSlots_eq h.inside h.least_nonzero
  have counted := slotsBefore_cut h.inside last h.least_nonzero (Nat.le_add_right start inputs.length)
  rw [nonzeroFrom_of_two_le h.long] at slots counted
  have same : slotsBefore (cyclic digits) (2 * (start + inputs.length) - 1) = count := by
    apply slotsBefore_eq h.positive
    intro j
    rw [due]
    omega
  rw [Nat.add_sub_cancel_left, same] at counted
  have shows := (lt_slotsBefore_iff (Cadence.cutFields_pos h.inside last) 0
    (2 * inputs.length - 1)).mpr (by rw [slotStart_zero]; omega)
  have order : Cadence.cutSlots digits start ≤
      slotsBefore (Cadence.cutFields digits start) (2 * inputs.length - 1) := by
    rw [slots]
    split <;> omega
  rw [map_range_split _ order, counted, h.slots_behind due, slots]

theorem slots_restored (h : CutFilm first digits film l start k inputs) {count : Nat}
    (due : ∀ j, j < count ↔ slotStart (cyclic digits) j + 2 ≤ 2 * (start + inputs.length)) :
    (List.range (slotsBefore (Cadence.cutFields digits start) (2 * inputs.length - 1))).map
        (slotShown first inputs (Cadence.cutFields digits start)) =
      restored (cyclic digits) film start k count (visibleAt inputs 0) := by
  have reached : 2 * start ≤ slotStart (cyclic digits) k := h.least.1
  rw [h.slots_split due, restored]
  rcases left : slotStart (cyclic digits) k - 2 * start with _ | _ | more
  · rw [if_neg (by omega)]
    rfl
  · rw [if_pos (by omega), List.range_one, List.map_singleton, slotShown, slotStart_zero]
    rfl
  · obtain ⟨late, before⟩ := h.starts_before (by omega)
    have some := h.some
    have arrived := (due (k - 1)).mpr (by omega)
    have joined : List.range' (k - 1) (count - (k - 1)) = (k - 1) :: List.range' k (count - k) := by
      rw [show count - (k - 1) = count - k + 1 by omega, List.range'_succ, show k - 1 + 1 = k by omega]
    rw [if_pos (by omega), List.range_one, List.map_singleton, h.slotShown_first (by omega), List.singleton_append]
    simp only [joined, List.map_cons]

end CutFilm

end cut

variable {σ : Type} {ends : Endpoints σ} {options : Options} {stream : InputStream} {c : Cadence} {r : Restorer}

/-- A run over a telecined film that nothing disturbs hands on the originals, each once and in order, from the
first one behind the start to the last one whose first two fields have come. -/
theorem run_restores_film (accepted : options.cadence = .ok c) (long : ∀ d ∈ c.digits, 2 ≤ d)
    (started : r.Started options stream) {film : Nat → Picture} (filmFits : ∀ j, (film j).Fits stream.layout)
    {inputs : List Frame} (filled : inputs ≠ []) (fits : ∀ f ∈ inputs, f.picture.Fits stream.layout)
    (telecined : TelecinedFrom options.first (cyclic c.digits) film options.start inputs) (s : σ)
    (quiet : ∀ d ∈ calls ends r inputs s, d.Undisturbed stream.layout) :
    let T := slotStart (cyclic c.digits)
    ∃ k count, (∀ j, j < k ↔ T j < 2 * options.start) ∧
      (∀ j, j < count ↔ T j + 2 ≤ 2 * (options.start + inputs.length)) ∧
      (calls ends r inputs s).flatMap Call.shown =
        restored (cyclic c.digits) film options.start k count (inputs.head filled).picture.visible := by
  intro T
  have inside := (Options.cadence_eq_ok accepted).inside
  have positive : ∀ i, 0 < cyclic c.digits i := fun i => Nat.lt_of_lt_of_le Nat.zero_lt_two
    (long _ (cyclic_mem (Cadence.ne_nil_of_lt inside) i))
  have length : 0 < inputs.length := List.length_pos_of_ne_nil filled
  have cut : CutFilm options.first c.digits film stream.layout options.start _ inputs :=
    ⟨long, inside, filmFits, fits, length, telecined, isLeast_slotsBefore positive _⟩
  have due : ∀ j, j < slotsBefore (cyclic c.digits) (2 * (options.start + inputs.length) - 1) ↔
      slotStart (cyclic c.digits) j + 2 ≤ 2 * (options.start + inputs.length) := by
    intro j
    rw [lt_slotsBefore_iff positive]
    omega
  refine ⟨slotsBefore (cyclic c.digits) (2 * options.start), _, fun j => lt_slotsBefore_iff positive j _, due, ?_⟩
  rw [started.shown accepted (getLast?_of_two_le long) fits s quiet, cut.slots_restored due, visibleAt_eq length,
    List.head_eq_getElem]

section column

def grays (j : Nat) : Picture := .column j.toUInt8 j.toUInt8

theorem grays_telecined {len : Nat → Nat} {i a b : Nat} (owns : Owns len a (2 * i))
    (ownsNext : Owns len b (2 * i + 1)) : Telecined .top len grays i (.column a.toUInt8 b.toUInt8) := by
  refine ⟨a, b, owns, ownsNext, ?_⟩
  intro plane row
  cases plane with
  | succ plane => split <;> rfl
  | zero =>
    match row with
    | 0 => rfl
    | 1 => rfl
    | row + 2 => split <;> rfl

theorem grays_fit (j : Nat) : (grays j).Fits .column := Picture.column_fits _ _

theorem run_restores_film_columns :
    ∃ r, (start (Pool.supply .boundless) ⟨.top, "23", 2⟩ .columns Pool.columns).result = .ok r ∧
      ∃ k count, (∀ j, j < k ↔ slotStart (cyclic [2, 3]) j < 4) ∧
        (∀ j, j < count ↔ slotStart (cyclic [2, 3]) j + 2 ≤ 10) ∧
        (calls (Pool.supply .boundless).collecting r (Frame.columns [(1, 2), (2, 3), (3, 3)]) (Pool.columns, [])).flatMap
            Call.shown =
          restored (cyclic [2, 3]) grays 2 k count [[#[1], #[2]]] := by
  obtain ⟨r, built⟩ : ∃ r, (start (Pool.supply .boundless) ⟨.top, "23", 2⟩ .columns Pool.columns).result = .ok r := ⟨_, rfl⟩
  have accepted : Options.cadence ⟨.top, "23", 2⟩ = .ok ⟨[2, 3], 0, 1, 0, 1, ⟨5, 4⟩, 2⟩ := rfl
  have telecined : TelecinedFrom .top (cyclic [2, 3]) grays 2 (Frame.columns [(1, 2), (2, 3), (3, 3)]) := by
    intro i inside
    match i with
    | 0 => exact grays_telecined (a := 1) (b := 2) ⟨by decide, by decide⟩ ⟨by decide, by decide⟩
    | 1 => exact grays_telecined (a := 2) (b := 3) ⟨by decide, by decide⟩ ⟨by decide, by decide⟩
    | 2 => exact grays_telecined (a := 3) (b := 3) ⟨by decide, by decide⟩ ⟨by decide, by decide⟩
  exact ⟨r, built, run_restores_film accepted (by decide) (columns_started built) grays_fit (List.cons_ne_nil _ _)
    (Frame.columns_fit [(1, 2), (2, 3), (3, 3)]) telecined _ (columns_undisturbed r _)⟩

end column

end Restorer

end InverseTelecine
