import InverseTelecine.Proofs.Cadence.TrailingZeros

namespace InverseTelecine

namespace Cadence

def nextSlots (c : Cadence) : Nat → List Nat × Cadence
  | 0 => ([], c)
  | n + 1 => (c.nextSlot.1 :: (c.nextSlot.2.nextSlots n).1, (c.nextSlot.2.nextSlots n).2)

/-- The cadence `parsed` after slots were read, its carry taken or itself rewound, in any order. -/
inductive Reached (parsed : Cadence) : Cadence → Prop where
  | parsed : Reached parsed parsed
  | nextSlot {c : Cadence} (reached : Reached parsed c) : Reached parsed c.nextSlot.2
  | takeCarry {c : Cadence} (reached : Reached parsed c) : Reached parsed c.takeCarry.2
  | rewind {c : Cadence} (reached : Reached parsed c) : Reached parsed c.rewind

/-- The digits are read from the first one, or from behind one that is not zero. -/
structure Settled (digits : List Nat) (position : Nat) : Prop where
  inside : position < digits.length
  behind : (digits.take position).getLast? ≠ some 0

def emptySlots (digits : List Nat) : Nat := if digits.getLast? = some 0 then 1 else 0

section firstNonzero

variable {digits rest : List Nat} {d : Nat}

theorem firstNonzero_of_filter_eq_nil (none : digits.filter (· ≠ 0) = []) :
    firstNonzero digits = (0, digits.length) := by
  have zeros : digits = List.replicate digits.length 0 := by
    apply List.eq_replicate_of_mem
    intro b member
    simpa using List.filter_eq_nil_iff.mp none b member
  have count := firstNonzero_zeros digits.length
  rwa [← zeros] at count

theorem firstNonzero_of_filter_eq_cons (found : digits.filter (· ≠ 0) = d :: rest) :
    d ≠ 0 ∧ ∃ count ≤ digits.length, firstNonzero digits = (d, count) ∧
      (digits.take count).getLast? = some d ∧ (digits.drop count).filter (· ≠ 0) = rest := by
  induction digits with
  | nil => cases found
  | cons first digits ih =>
    cases first with
    | zero =>
      obtain ⟨some, count, bound, search, last, left⟩ := ih (by simpa using found)
      refine ⟨some, count + 1, Nat.succ_le_succ bound, by rw [firstNonzero, search], ?_, left⟩
      rw [List.take_succ_cons, List.getLast?_cons, last, Option.getD_some]
    | succ first =>
      rw [List.filter_cons_of_pos (by simp)] at found
      obtain ⟨rfl, rfl⟩ := List.cons.inj found
      exact ⟨Nat.succ_ne_zero first, 1, Nat.succ_le_succ (Nat.zero_le _), rfl, rfl, rfl⟩

end firstNonzero

section nextSlots

variable {c : Cadence}

theorem nextSlots_add (c : Cadence) (m n : Nat) :
    c.nextSlots (m + n) =
      ((c.nextSlots m).1 ++ ((c.nextSlots m).2.nextSlots n).1, ((c.nextSlots m).2.nextSlots n).2) := by
  induction m generalizing c with
  | zero => rw [Nat.zero_add]; rfl
  | succ m ih =>
    rw [Nat.succ_add, nextSlots, ih]
    rfl

theorem nextSlot_of_last (inside : c.position < c.digits.length)
    (none : (c.digits.drop c.position).filter (· ≠ 0) = []) :
    c.nextSlot = (0, { c with position := 0 }) := by
  have search := firstNonzero_of_filter_eq_nil none
  rw [List.length_drop] at search
  simp only [nextSlot, search]
  rw [if_pos (by omega)]

theorem nextSlot_of_found {d count : Nat} (search : firstNonzero (c.digits.drop c.position) = (d, count)) :
    c.nextSlot =
      (d, { c with position := if c.digits.length ≤ c.position + count then 0 else c.position + count }) := by
  simp only [nextSlot, search]

theorem getLast?_of_filter_drop {digits : List Nat} {position : Nat} (inside : position < digits.length)
    (none : (digits.drop position).filter (· ≠ 0) = []) : digits.getLast? = some 0 := by
  have same : (digits.drop position).getLast? = digits.getLast? := by
    rw [List.getLast?_drop, if_neg (by omega)]
  have filled : digits ≠ [] := List.ne_nil_of_length_pos (by omega)
  rw [List.getLast?_eq_some_getLast filled] at same ⊢
  have zero := List.filter_eq_nil_iff.mp none _ (List.mem_of_getLast? same)
  simpa using zero

theorem nextSlots_toEnd (inside : c.position < c.digits.length) {found : List Nat}
    (left : (c.digits.drop c.position).filter (· ≠ 0) = found) :
    let slots := found ++ List.replicate (emptySlots c.digits) 0
    c.nextSlots slots.length = (slots, { c with position := 0 }) := by
  simp only
  induction found generalizing c with
  | nil =>
    rw [emptySlots, if_pos (getLast?_of_filter_drop inside left)]
    show c.nextSlots 1 = _
    rw [nextSlots, nextSlot_of_last inside left]
    rfl
  | cons d found ih =>
    obtain ⟨digit, count, bound, search, last, rest⟩ := firstNonzero_of_filter_eq_cons left
    have next := nextSlot_of_found search
    rw [List.length_drop] at bound
    rw [List.drop_drop] at rest
    rcases Nat.lt_or_ge (c.position + count) c.digits.length with before | met
    · rw [if_neg (Nat.not_le_of_lt before)] at next
      have later := ih (c := { c with position := c.position + count }) before rest
      rw [List.cons_append, List.length_cons, nextSlots, next, later]
    · -- The digit is the last of the pattern, so no empty slot follows it.
      rw [if_pos met] at next
      have whole : (c.digits.drop c.position).getLast? = some d := by
        rw [List.take_of_length_le (by rw [List.length_drop]; omega)] at last
        exact last
      rw [List.getLast?_drop, if_neg (by omega)] at whole
      rw [List.drop_of_length_le (by omega)] at rest
      obtain rfl : [] = found := rest
      rw [emptySlots, whole, if_neg (fun zero => digit (Option.some.inj zero))]
      show c.nextSlots 1 = _
      rw [nextSlots, next]
      rfl

theorem nextSlots_upTo {place : Nat} (settled : Settled c.digits place) (order : c.position ≤ place) {found : List Nat}
    (left : ((c.digits.take place).drop c.position).filter (· ≠ 0) = found) :
    c.nextSlots found.length = (found, { c with position := place }) := by
  have inside := settled.inside
  induction found generalizing c with
  | nil =>
    have met : c.position = place := by
      rcases Nat.lt_or_eq_of_le order with before | met
      · refine absurd (getLast?_of_filter_drop ?_ left) settled.behind
        rw [List.length_take]
        omega
      · exact met
    rw [← met]
    rfl
  | cons d found ih =>
    obtain ⟨digit, count, bound, search, last, rest⟩ := firstNonzero_of_filter_eq_cons left
    rw [List.length_drop, List.length_take] at bound
    rw [List.drop_drop] at rest
    have whole : c.digits.drop c.position = (c.digits.take place).drop c.position ++ c.digits.drop place := by
      rw [← List.drop_append_of_le_length (by rw [List.length_take]; omega), List.take_append_drop]
    have next : c.nextSlot = (d, { c with position := c.position + count }) := by
      rw [nextSlot_of_found (by rw [whole, firstNonzero_append (by rw [search]; exact digit), search]),
        if_neg (by omega)]
    have further : c.position + count ≤ place := by omega
    have later := ih (c := { c with position := c.position + count }) settled further rest inside
    rw [List.length_cons, nextSlots, next, later]

end nextSlots

section settled

variable {digits : List Nat} {position : Nat}

theorem settled_zero (filled : digits ≠ []) : Settled digits 0 :=
  ⟨List.length_pos_of_ne_nil filled, by simp⟩

theorem Settled.nextPosition (h : Settled digits position) : Settled digits (Cadence.nextPosition digits position) := by
  have filled : digits ≠ [] := List.ne_nil_of_length_pos (Nat.zero_lt_of_lt h.inside)
  simp only [Cadence.nextPosition]
  split
  · exact settled_zero filled
  next further =>
    refine ⟨Nat.lt_of_not_le further, ?_⟩
    cases left : (digits.drop position).filter (· ≠ 0) with
    | nil =>
      rw [firstNonzero_of_filter_eq_nil left, List.length_drop] at further
      omega
    | cons d rest =>
      obtain ⟨digit, count, _, search, last, _⟩ := firstNonzero_of_filter_eq_cons left
      rw [search, List.take_add, List.getLast?_append, last, Option.some_or]
      exact fun zero => digit (Option.some.inj zero)

/-- The walk to the start ends with a digit that has the first field of the stream or the one before it. -/
theorem settled_phaseAt {start : Nat} (inside : start < fieldCount digits) :
    Settled digits (phaseAt digits start).1 := by
  have filled := ne_nil_of_lt inside
  refine ⟨phaseAt_lt inside, ?_⟩
  by_cases early : start = 0
  · simp [phaseAt, early]
  · -- The digit with which the walk ends makes the count reach the start, so it is not zero.
    obtain ⟨n, _, before, after, phase⟩ := phaseAt_walk inside early
    have read := cyclic_ne_zero_of_reached before after
    have bound : n % digits.length + 1 ≤ digits.length := Nat.mod_lt n (List.length_pos_of_ne_nil filled)
    rw [phase, List.getLast?_take, ← Nat.mod_add_mod]
    rcases Nat.lt_or_eq_of_le bound with further | met
    · rw [Nat.mod_eq_of_lt further, if_neg (Nat.succ_ne_zero _), Nat.add_sub_cancel, List.getElem?_eq_getElem bound,
        Option.some_or]
      intro zero
      rw [cyclic, List.getD_eq_getElem _ _ bound] at read
      exact read (Option.some.inj zero)
    · rw [met, Nat.mod_self, if_pos rfl]
      intro zero
      cases zero

end settled

section reached

variable {pattern : String} {start : Nat} {parsed c : Cadence}

theorem Reached.settled (accepted : parse pattern start = .ok parsed) (reached : Reached parsed c) :
    c.digits = parsed.digits ∧ c.startPosition = parsed.startPosition ∧ Settled c.digits c.position := by
  obtain ⟨digits, _, inside, _, rfl⟩ := parse_eq_ofDigits accepted
  have origin := settled_phaseAt inside
  induction reached with
  | parsed => exact ⟨rfl, rfl, origin⟩
  | nextSlot _ ih =>
    obtain ⟨same, first, settled⟩ := ih
    exact ⟨same, first, settled.nextPosition⟩
  | takeCarry _ ih => exact ih
  | @rewind c _ ih =>
    obtain ⟨same, first, _⟩ := ih
    refine ⟨same, first, ?_⟩
    show Settled c.digits c.startPosition
    rw [same, first]
    exact origin

theorem Reached.nextSlots (reached : Reached parsed c) (n : Nat) : Reached parsed (c.nextSlots n).2 := by
  induction n generalizing c with
  | zero => exact reached
  | succ n ih => exact ih reached.nextSlot

end reached

/-- The slots of one round from a position on. The digits that are not zero come in a circle, and where it passes the
end of the pattern comes the empty slot. -/
def round (digits : List Nat) (position : Nat) : List Nat :=
  (digits.drop position).filter (· ≠ 0) ++ List.replicate (emptySlots digits) 0 ++
    (digits.take position).filter (· ≠ 0)

section round

theorem length_round (digits : List Nat) (position : Nat) :
    (round digits position).length = digits.countP (· ≠ 0) + emptySlots digits := by
  have parts : digits.countP (· ≠ 0) =
      (digits.take position).countP (· ≠ 0) + (digits.drop position).countP (· ≠ 0) := by
    rw [← List.countP_append, List.take_append_drop]
  rw [round, List.length_append, List.length_append, ← List.countP_eq_length_filter, ← List.countP_eq_length_filter,
    parts, List.length_replicate]
  omega

theorem filter_round {digits : List Nat} {position : Nat} (bound : position ≤ digits.length) :
    (round digits position).filter (· ≠ 0) = nonzeroFrom digits position := by
  rw [round, nonzeroFrom, List.rotate_eq_drop_append_take bound]
  simp [List.filter_append, List.filter_filter]

theorem fieldCount_round (digits : List Nat) (position : Nat) :
    fieldCount (round digits position) = fieldCount digits := by
  have parts := fieldCount_append (digits.take position) (digits.drop position)
  rw [List.take_append_drop] at parts
  rw [round, fieldCount_append, fieldCount_append_zeros, fieldCount_nonzero, fieldCount_nonzero, parts]
  exact Nat.add_comm _ _

theorem Settled.nextSlots_round {c : Cadence} (h : Settled c.digits c.position) :
    c.nextSlots (round c.digits c.position).length = (round c.digits c.position, c) := by
  have first := nextSlots_toEnd h.inside rfl
  have second := nextSlots_upTo (c := { c with position := 0 }) h (Nat.zero_le _) rfl
  simp only [List.drop_zero] at second
  rw [round, List.length_append, nextSlots_add, first, second]

end round

section reached

variable {pattern : String} {start : Nat} {parsed c : Cadence}

/-- Wherever a parsed cadence stands, as many slots as it has digits that are not zero, and one more if the last is
zero, are a whole round: they hold the fields of the pattern and leave the cadence as it was. -/
theorem reading_goes_round (accepted : parse pattern start = .ok parsed) (reached : Reached parsed c) :
    let slots := c.digits.countP (· ≠ 0) + emptySlots c.digits
    c.digits = parsed.digits ∧ c.nextSlots slots = (round c.digits c.position, c) ∧
      (round c.digits c.position).filter (· ≠ 0) = nonzeroFrom c.digits c.position ∧
      fieldCount (round c.digits c.position) = fieldCount c.digits ∧
      ∀ n, (c.nextSlots n).2.position < c.digits.length := by
  intro slots
  obtain ⟨same, _, settled⟩ := reached.settled accepted
  refine ⟨same, ?_, filter_round settled.inside.le, fieldCount_round c.digits c.position, ?_⟩
  · rw [← settled.nextSlots_round, length_round]
  · intro n
    obtain ⟨same', _, further⟩ := (reached.nextSlots n).settled accepted
    rw [same, ← same']
    exact further.inside

theorem reading_goes_round_zeros :
    ∃ parsed, parse "03020" 1 = .ok parsed ∧
      let c := parsed.takeCarry.2.nextSlot.2
      Reached parsed c ∧ c.position = 4 ∧ c.nextSlots 3 = ([0, 3, 2], c) ∧ ∀ n, (c.nextSlots n).2.position < 5 := by
  have accepted : parse "03020" 1 = .ok ⟨[0, 3, 0, 2, 0], 2, 1, 2, 1, ⟨5, 10⟩, 1⟩ := rfl
  refine ⟨_, accepted, ?_⟩
  intro c
  have reached : Reached _ c := .nextSlot (.takeCarry .parsed)
  obtain ⟨_, around, _, _, inside⟩ := reading_goes_round accepted reached
  exact ⟨reached, rfl, around, inside⟩

end reached

end Cadence

end InverseTelecine
