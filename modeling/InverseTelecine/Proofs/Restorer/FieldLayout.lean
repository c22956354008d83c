import InverseTelecine.Proofs.Cadence.SlotOrder
import InverseTelecine.Proofs.Restorer.RowRouter

namespace InverseTelecine

/-- The picture of a slot of `fields` fields that starts in field `start`, two fields to an input. -/
def slotPicture (first : FieldParity) (inputs : Nat → Visible) (start fields : Nat) : Visible :=
  if start % 2 = 0 then inputs (start / 2)
  else if 2 ≤ fields then Visible.weave first (inputs ((start + 1) / 2)) (inputs ((start - 1) / 2))
  else inputs ((start - 1) / 2)

section slotPicture

variable (first : FieldParity) (inputs : Nat → Visible)

theorem slotPicture_even (i fields : Nat) : slotPicture first inputs (2 * i) fields = inputs i := by
  have even : 2 * i % 2 = 0 := by omega
  have half : 2 * i / 2 = i := by omega
  unfold slotPicture
  rw [if_pos even, half]

theorem slotPicture_odd (i : Nat) {fields : Nat} (two : 2 ≤ fields) :
    slotPicture first inputs (2 * i + 1) fields = Visible.weave first (inputs (i + 1)) (inputs i) := by
  have odd : ¬ (2 * i + 1) % 2 = 0 := by omega
  have upper : (2 * i + 1 + 1) / 2 = i + 1 := by omega
  have lower : (2 * i + 1 - 1) / 2 = i := by omega
  unfold slotPicture
  rw [if_neg odd, if_pos two, upper, lower]

theorem slotPicture_odd_short (i : Nat) {fields : Nat} (short : fields < 2) :
    slotPicture first inputs (2 * i + 1) fields = inputs i := by
  have odd : ¬ (2 * i + 1) % 2 = 0 := by omega
  have lower : (2 * i + 1 - 1) / 2 = i := by omega
  unfold slotPicture
  rw [if_neg odd, if_neg (Nat.not_le_of_lt short), lower]

end slotPicture

namespace RowRouter

structure Reads (len : Nat → Nat) (j : Nat) (m : RowRouter) : Prop where
  inside : m.position < m.digits.length
  last : m.digits.getLast? ≠ some 0
  fields : ∀ q, slotFields m.digits m.position m.carry q = len (j + q)

/-- Before input `i` slot `j` is due next: it starts `skip` fields behind the first field of `i`, or in
the field before that, which is then in the held picture. -/
structure At (len : Nat → Nat) (inputs : Nat → Visible) (i j : Nat) (m : RowRouter) : Prop where
  reads : Reads len j m
  earlier : ∀ q < j, slotStart len q + 2 ≤ 2 * i
  phase : m.held = none ∧ slotStart len j = 2 * i + m.skip ∨
    m.skip = 0 ∧ ∃ before, i = before + 1 ∧ m.held = some (inputs before) ∧ slotStart len j = 2 * before + 1

variable {len : Nat → Nat} {inputs : Nat → Visible} {i j : Nat} {m : RowRouter}

theorem Reads.congr {m' : RowRouter} (h : Reads len j m) (digits : m'.digits = m.digits)
    (position : m'.position = m.position) (carry : m'.carry = m.carry) : Reads len j m' := by
  obtain ⟨inside, last, fields⟩ := h
  rw [← digits, ← position] at inside
  rw [← digits] at last
  rw [← digits, ← position, ← carry] at fields
  exact ⟨inside, last, fields⟩

theorem Reads.positive (h : Reads len j m) : 0 < len j := by
  have slot := Cadence.slotFields_pos h.inside h.last m.carry 0
  rwa [h.fields 0] at slot

theorem Reads.scan (h : Reads len j m) :
    ∃ position, ({ m with carry := 0 } : RowRouter).scan m.carry = (len j, { m with position, carry := 0 }) ∧
      Reads len (j + 1) { m with position, carry := 0 } := by
  have now := h.fields 0
  by_cases carried : m.carry = 0
  · obtain ⟨read, _⟩ := Cadence.nonzeroFrom_nextPosition h.inside h.last
    have filled : m.digits ≠ [] := fun none => by
      have inside := h.inside
      rw [none] at inside
      exact absurd inside (Nat.not_lt_zero _)
    refine ⟨Cadence.nextPosition m.digits m.position, ?_, Cadence.nextPosition_lt filled m.position, h.last, ?_⟩
    · rw [carried, scan_zero, read]
      simp only [slotFields, carried, if_true, Nat.add_zero] at now
      rw [now]
    · intro q
      have next := h.fields (q + 1)
      rw [carried, ← Cadence.slotFields_nextPosition h.inside h.last] at next
      rw [next]
      congr 1
      omega
  · refine ⟨m.position, ?_, h.inside, h.last, ?_⟩
    · rw [scan_of_ne_zero (by exact h.inside) carried]
      simp only [slotFields, if_neg carried, if_true, Nat.add_zero] at now
      rw [now]
    · intro q
      have next := h.fields (q + 1)
      rw [← Cadence.slotFields_carried _ _ carried] at next
      rw [next]
      congr 1
      omega

theorem showSlots_eq {fields : Nat} {read : RowRouter}
    (scanned : ({ m with carry := 0 } : RowRouter).scan m.carry = (fields, read)) (some : 0 < fields)
    (input : Visible) :
    m.showSlots input =
      ((read.showHeld fields).1 ++
          ((read.showHeld fields).2.2.showInput (read.showHeld fields).2.1 input).1,
        ((read.showHeld fields).2.2.showInput (read.showHeld fields).2.1 input).2) := by
  simp only [showSlots, scanned, if_neg (Nat.ne_of_gt some)]

theorem showHeld_of_empty (empty : m.held = none) (fields : Nat) : m.showHeld fields = ([], fields, m) := by
  simp only [showHeld, empty]

theorem showHeld_of_ne_one {fields : Nat} (more : fields ≠ 1) : m.showHeld fields = ([], fields, m) := by
  unfold showHeld
  cases m.held with
  | none => rfl
  | some held => simp only [if_neg more]

theorem showHeld_of_last {held : Visible} (full : m.held = some held) :
    m.showHeld 1 = ([held], ({ m with held := none } : RowRouter).scan 0) := by
  simp only [showHeld, full, if_true]

theorem showInput_empty (empty : m.held = none) {fields : Nat} (some : 0 < fields) (input : Visible) :
    m.showInput fields input =
      ([input], if fields = 1 then { m with held := .some input, skip := 0 } else { m with skip := fields - 2 }) := by
  simp only [showInput, empty]
  by_cases long : 2 ≤ fields
  · rw [if_pos long, if_neg (by omega), settle, if_neg (by simp [empty]), empty]
  · rw [if_neg long, if_pos (by omega), if_pos (by omega), settle, if_neg (by simp)]

theorem showInput_held {held : Visible} (full : m.held = some held) {fields : Nat} (two : 2 ≤ fields)
    (input : Visible) :
    m.showInput fields input = ([Visible.weave m.first input held],
      if fields = 2 then { m with held := some input, skip := 0 }
      else { m with held := none, skip := fields - 3 }) := by
  simp only [showInput, full]
  by_cases short : fields ≤ 2
  · have exact : fields = 2 := by omega
    rw [if_pos short, if_pos exact, settle, if_neg (by simp only; omega), exact]
  · rw [if_neg short, if_neg (by omega), settle, if_neg (by simp)]

theorem At.next (h : At len inputs i j m) {j' : Nat} {m' : RowRouter} (reads : Reads len j' m')
    (last : ∀ q, j ≤ q → q < j' → slotStart len q ≤ 2 * i)
    (phase : m'.held = none ∧ slotStart len j' = 2 * (i + 1) + m'.skip ∨
      m'.skip = 0 ∧ m'.held = some (inputs i) ∧ slotStart len j' = 2 * i + 1) :
    At len inputs (i + 1) j' m' := by
  refine ⟨reads, ?_, ?_⟩
  · intro q below
    rcases Nat.lt_or_ge q j with before | after
    · have early := h.earlier q before
      omega
    · have due := last q after below
      omega
  · rcases phase with free | ⟨skip, held, start⟩
    · exact .inl free
    · exact .inr ⟨skip, i, rfl, held, start⟩

theorem At.showFresh (h : At len inputs i j m) {j' : Nat} {m' : RowRouter}
    (due : ∀ q, j ≤ q → q < j' → slotStart len q ≤ 2 * i) (start : slotStart len j' = 2 * i)
    (empty : m'.held = none) (reads : Reads len (j' + 1) m') (positive : 0 < len j') :
    (m'.showInput (len j') (inputs i)).1 = [slotPicture m'.first inputs (slotStart len j') (len j')] ∧
      At len inputs (i + 1) (j' + 1) (m'.showInput (len j') (inputs i)).2 := by
  have ends : slotStart len (j' + 1) = 2 * i + len j' := by rw [slotStart_succ, start]
  have last : ∀ q, j ≤ q → q < j' + 1 → slotStart len q ≤ 2 * i := by
    intro q low high
    rcases Nat.lt_or_ge q j' with before | here
    · exact due q low before
    · have same : q = j' := by omega
      rw [same, start]
  rw [showInput_empty empty positive]
  constructor
  · rw [start, slotPicture_even]
  · split
    next single => exact h.next (reads.congr rfl rfl rfl) last (.inr ⟨rfl, rfl, by rw [ends, single]⟩)
    next long =>
      refine h.next (reads.congr rfl rfl rfl) last (.inl ⟨empty, ?_⟩)
      simp only [ends]
      omega

theorem At.showWoven (h : At len inputs i j m) {before : Nat} (here : i = before + 1)
    (start : slotStart len j = 2 * before + 1) {m' : RowRouter} (held : m'.held = some (inputs before))
    (reads : Reads len (j + 1) m') (two : 2 ≤ len j) :
    (m'.showInput (len j) (inputs i)).1 = [slotPicture m'.first inputs (slotStart len j) (len j)] ∧
      At len inputs (i + 1) (j + 1) (m'.showInput (len j) (inputs i)).2 := by
  have ends : slotStart len (j + 1) = 2 * before + 1 + len j := by rw [slotStart_succ, start]
  have last : ∀ q, j ≤ q → q < j + 1 → slotStart len q ≤ 2 * i := by
    intro q low high
    have same : q = j := by omega
    rw [same, start]
    omega
  rw [showInput_held held two]
  constructor
  · rw [start, slotPicture_odd _ _ _ two, here]
  · split
    next exact =>
      exact h.next (reads.congr rfl rfl rfl) last (.inr ⟨rfl, rfl, by rw [ends, exact, here]; omega⟩)
    next long =>
      refine h.next (reads.congr rfl rfl rfl) last (.inl ⟨rfl, ?_⟩)
      simp only [ends]
      omega

def Advances (len : Nat → Nat) (inputs : Nat → Visible) (i j : Nat) (first : FieldParity)
    (out : List Visible × RowRouter) : Prop :=
  ∃ j', out.1 = (List.range' j (j' - j)).map (fun q => slotPicture first inputs (slotStart len q) (len q)) ∧
    At len inputs (i + 1) j' out.2

theorem At.showLast (h : At len inputs i j m) {before : Nat} (here : i = before + 1)
    (start : slotStart len j = 2 * before + 1) {m' : RowRouter} (held : m'.held = some (inputs before))
    (empty : m'.carry = 0) (reads : Reads len (j + 1) m') (single : len j = 1) :
    Advances len inputs i j m'.first
      ((m'.showHeld 1).1 ++ ((m'.showHeld 1).2.2.showInput (m'.showHeld 1).2.1 (inputs i)).1,
        ((m'.showHeld 1).2.2.showInput (m'.showHeld 1).2.1 (inputs i)).2) := by
  have next : slotStart len (j + 1) = 2 * i := by
    rw [slotStart_succ, start, single, here]
    omega
  have due : ∀ q, j ≤ q → q < j + 1 → slotStart len q ≤ 2 * i := by
    intro q low high
    have same : q = j := by omega
    rw [same, start]
    omega
  have free : Reads len (j + 1) { m' with held := none } := reads.congr rfl rfl rfl
  obtain ⟨after, read, rest⟩ := free.scan
  have shown := h.showFresh due next rfl rest free.positive
  rw [showHeld_of_last held]
  simp only [empty] at read
  rw [show ({ m' with held := none } : RowRouter) = { m' with held := none, carry := 0 } by rw [← empty], read]
  refine ⟨j + 2, ?_, shown.2⟩
  simp only
  rw [shown.1, Nat.add_sub_cancel_left, List.singleton_append, List.range'_succ, List.range'_succ, List.map_cons,
    List.map_cons, start, single, slotPicture_odd_short _ _ _ Nat.one_lt_two]
  rfl

theorem At.showSlots (h : At len inputs i j m) (none : m.skip = 0) :
    Advances len inputs i j m.first (m.showSlots (inputs i)) := by
  obtain ⟨position, scanned, reads⟩ := h.reads.scan
  have positive := h.reads.positive
  rw [showSlots_eq scanned positive]
  rcases h.phase with ⟨empty, start⟩ | ⟨_, before, here, held, start⟩
  · rw [none, Nat.add_zero] at start
    have shown := h.showFresh (fun q low high => by omega) start (by exact empty) reads positive
    rw [showHeld_of_empty (by exact empty)]
    refine ⟨j + 1, ?_, shown.2⟩
    rw [List.nil_append, shown.1, Nat.add_sub_cancel_left]
    rfl
  · by_cases single : len j = 1
    · rw [single]
      exact h.showLast here start (by exact held) rfl reads single
    · have shown := h.showWoven here start (by exact held) reads (by omega)
      rw [showHeld_of_ne_one single]
      refine ⟨j + 1, ?_, shown.2⟩
      rw [List.nil_append, shown.1, Nat.add_sub_cancel_left]
      rfl

theorem At.step (h : At len inputs i j m) : Advances len inputs i j m.first (m.step (inputs i)) := by
  have unread : ∀ q, j ≤ q → q < j → slotStart len q ≤ 2 * i := fun q low high => by omega
  unfold RowRouter.step
  by_cases many : 2 ≤ m.skip
  · rw [if_pos many]
    refine ⟨j, by simp, h.next (h.reads.congr rfl rfl rfl) unread ?_⟩
    rcases h.phase with ⟨empty, start⟩ | ⟨zero, _⟩
    · exact .inl ⟨empty, by simp only [start]; omega⟩
    · omega
  · rw [if_neg many]
    by_cases single : m.skip = 1
    · rw [if_pos single]
      refine ⟨j, by simp, h.next (h.reads.congr rfl rfl rfl) unread ?_⟩
      rcases h.phase with ⟨_, start⟩ | ⟨zero, _⟩
      · exact .inr ⟨rfl, rfl, by rw [start, single]⟩
      · omega
    · rw [if_neg single]
      exact h.showSlots (by omega)

theorem first_scan (m : RowRouter) (fields : Nat) : (m.scan fields).2.first = m.first := rfl

theorem first_settle (m : RowRouter) (fields : Nat) : (m.settle fields).first = m.first := by
  unfold settle
  split <;> rfl

theorem first_showHeld (m : RowRouter) (fields : Nat) : (m.showHeld fields).2.2.first = m.first := by
  unfold showHeld
  cases m.held with
  | none => rfl
  | some held =>
    simp only
    split <;> rfl

theorem first_showInput (m : RowRouter) (fields : Nat) (input : Visible) :
    (m.showInput fields input).2.first = m.first := by
  unfold showInput
  cases m.held with
  | some held => exact first_settle _ _
  | none =>
    simp only
    split
    · exact first_settle _ _
    · split
      · exact first_settle _ _
      · exact first_settle _ _

theorem first_step (m : RowRouter) (input : Visible) : (m.step input).2.first = m.first := by
  unfold RowRouter.step
  split
  · rfl
  · split
    · rfl
    · simp only [RowRouter.showSlots]
      split
      · rfl
      · rw [first_showInput, first_showHeld, first_scan]

theorem At.slot_eq (h : At len inputs i j m) (positive : ∀ q, 0 < len q) : slotsBefore len (2 * i - 1) = j := by
  apply slotsBefore_eq positive
  intro q
  constructor
  · intro read
    have early := h.earlier q read
    omega
  · intro early
    rcases Nat.lt_or_ge q j with read | unread
    · exact read
    · have order := slotStart_mono len unread
      rcases h.phase with ⟨_, start⟩ | ⟨_, before, here, _, start⟩
      · omega
      · omega

theorem At.outputs (h : At len inputs i j m) (positive : ∀ q, 0 < len q) (n : Nat) :
    m.outputs ((List.range' i n).map inputs) = (List.range' i n).map fun i =>
      (slotsAt len i).map fun q => slotPicture m.first inputs (slotStart len q) (len q) := by
  induction n generalizing i j m with
  | zero => rfl
  | succ n ih =>
    obtain ⟨j', shown, next⟩ := h.step
    have here := h.slot_eq positive
    have there := next.slot_eq positive
    rw [show 2 * (i + 1) - 1 = 2 * i + 1 by omega] at there
    rw [List.range'_succ, List.map_cons, List.map_cons, RowRouter.outputs, ih next, first_step, shown,
      slotsAt_eq positive, here, there]

theorem start_at {digits : List Nat} {start : Nat} (inside : start < Cadence.fieldCount digits)
    (last : digits.getLast? ≠ some 0) (first : FieldParity) (inputs : Nat → Visible) :
    At (Cadence.cutFields digits start) inputs 0 0 (RowRouter.start digits start first) := by
  rw [start_phase inside]
  refine ⟨⟨Cadence.phaseAt_lt inside, last, fun q => by rw [Nat.zero_add]; rfl⟩, ?_, .inl ⟨rfl, rfl⟩⟩
  intro q read
  exact absurd read (Nat.not_lt_zero q)

theorem outputs_start {digits : List Nat} {start : Nat} (inside : start < Cadence.fieldCount digits)
    (last : digits.getLast? ≠ some 0) (first : FieldParity) (inputs : List Visible) :
    (RowRouter.start digits start first).outputs inputs = (List.range inputs.length).map fun i =>
      (slotsAt (Cadence.cutFields digits start) i).map fun q =>
        slotPicture first (inputs.getD · []) (slotStart (Cadence.cutFields digits start) q)
          (Cadence.cutFields digits start q) := by
  have run := (start_at inside last first (inputs.getD · [])).outputs
    (Cadence.cutFields_pos inside last) inputs.length
  have all : (List.range' 0 inputs.length).map (inputs.getD · []) = inputs := by
    apply List.ext_getElem
    · rw [List.length_map, List.length_range']
    · intro i inside_range inside_inputs
      rw [List.getElem_map, List.getElem_range', List.getD_eq_getElem _ _ (by omega)]
      simp
  rw [all, ← List.range_eq_range'] at run
  rw [run]
  rfl

theorem flatten_outputs_start {digits : List Nat} {start : Nat} (inside : start < Cadence.fieldCount digits)
    (last : digits.getLast? ≠ some 0) (first : FieldParity) (inputs : List Visible) :
    ((RowRouter.start digits start first).outputs inputs).flatten =
      (List.range (slotsBefore (Cadence.cutFields digits start) (2 * inputs.length - 1))).map fun q =>
        slotPicture first (inputs.getD · []) (slotStart (Cadence.cutFields digits start) q)
          (Cadence.cutFields digits start q) := by
  rw [outputs_start inside last, ← List.flatMap_def, ← flatMap_slotsAt (Cadence.cutFields_pos inside last),
    List.map_flatMap]

end RowRouter

end InverseTelecine
