import InverseTelecine.Proofs.Cadence.TrailingZeros

namespace InverseTelecine.Cadence

/-- The first of the characters that is no digit is `c`, and `index` others stand before it. -/
structure Stray (chars : List Char) (c : Char) (index : Nat) : Prop where
  here : chars[index]? = some c
  stray : Text.isDigit c = false
  before : ∀ b ∈ chars.take index, Text.isDigit b = true

section stray

variable {chars : List Char} {b c : Char} {index : Nat}

theorem stray_cons_of_digit (digit : Text.isDigit b = true) (index : Nat) :
    Stray (b :: chars) c index ↔ ∃ n, index = n + 1 ∧ Stray chars c n := by
  constructor
  · rintro ⟨here, stray, before⟩
    cases index with
    | zero =>
      obtain rfl : b = c := Option.some.inj here
      rw [digit] at stray
      cases stray
    | succ n =>
      refine ⟨n, rfl, here, stray, ?_⟩
      intro a member
      exact before a (List.mem_cons_of_mem b member)
  · rintro ⟨n, rfl, here, stray, before⟩
    exact ⟨here, stray, List.forall_mem_cons.mpr ⟨digit, before⟩⟩

theorem stray_cons_of_not_digit (stray : Text.isDigit b = false) (index : Nat) :
    Stray (b :: chars) c index ↔ b = c ∧ index = 0 := by
  constructor
  · rintro ⟨here, _, before⟩
    cases index with
    | zero => exact ⟨Option.some.inj here, rfl⟩
    | succ n =>
      have digit := before b List.mem_cons_self
      rw [stray] at digit
      cases digit
  · rintro ⟨rfl, rfl⟩
    exact ⟨rfl, stray, fun a member => by cases member⟩

theorem readDigits_eq_error_iff (chars : List Char) (index : Nat) (e : FilterError) :
    readDigits index chars = .error e ↔ ∃ c n, Stray chars c n ∧ e = .notADigit c (index + n) := by
  induction chars generalizing index with
  | nil =>
    constructor
    · intro failed
      cases failed
    · rintro ⟨c, n, stray, _⟩
      cases stray.here
  | cons b chars ih =>
    rw [readDigits]
    cases digit : Text.isDigit b with
    | false =>
      simp only [Bool.false_eq_true, if_false, Except.error.injEq, stray_cons_of_not_digit digit]
      constructor
      · rintro rfl
        exact ⟨b, 0, ⟨rfl, rfl⟩, rfl⟩
      · rintro ⟨c, n, ⟨rfl, rfl⟩, rfl⟩
        rfl
    | true =>
      have kept : readDigits (index + 1) chars = .error e ↔
          (readDigits (index + 1) chars).map (digitValue b :: ·) = .error e := by
        cases readDigits (index + 1) chars with
        | error other => exact Iff.rfl
        | ok digits => simp [Except.map]
      rw [if_pos rfl, ← kept, ih]
      constructor
      · rintro ⟨c, n, stray, rfl⟩
        exact ⟨c, n + 1, (stray_cons_of_digit digit _).mpr ⟨n, rfl, stray⟩, by rw [Nat.add_right_comm, Nat.add_assoc]⟩
      · rintro ⟨c, n, stray, rfl⟩
        obtain ⟨m, rfl, later⟩ := (stray_cons_of_digit digit _).mp stray
        exact ⟨c, m, later, by rw [Nat.add_right_comm, Nat.add_assoc]⟩

theorem Stray.not_numeric (h : Stray chars c index) : ¬ ∀ b ∈ chars, Text.isDigit b = true := by
  intro numeric
  have digit := numeric c (List.mem_of_getElem? h.here)
  rw [h.stray] at digit
  cases digit

theorem Stray.unique {d : Char} {other : Nat} (h : Stray chars c index) (h' : Stray chars d other) :
    c = d ∧ index = other := by
  have first := (readDigits_eq_error_iff chars 0 _).mpr ⟨c, index, h, rfl⟩
  have second := (readDigits_eq_error_iff chars 0 _).mpr ⟨d, other, h', rfl⟩
  rw [first, Nat.zero_add, Nat.zero_add] at second
  exact FilterError.notADigit.inj (Except.error.inj second)

end stray

/-- The walk to the first field of a stream that starts `start` frames into the digits. It ends with the digit that
reaches that field, the last of `read`, of which `carry` fields belong to the stream. -/
structure Walked (digits : List Nat) (start read position carry : Nat) : Prop where
  walk : reach (2 * start) (digits ++ digits) 0 0 = some (read, carry)
  least : IsLeast {n | 2 * start ≤ slotStart (cyclic digits) n} read
  ends : read ≤ 2 * digits.length
  position_eq : position = read % digits.length
  carry_eq : 2 * start + carry = slotStart (cyclic digits) read
  part : carry < cyclic digits (read - 1)

/-- The cadence has the digits, their ratio as it was counted, and the phase of a stream that starts `start` frames
into them. -/
structure Describes (c : Cadence) (digits : List Nat) (start : Nat) : Prop where
  digits_eq : c.digits = digits
  ratio_eq : c.ratio = ⟨fieldCount digits, 2 * digits.length⟩
  early : start = 0 → c.position = 0 ∧ c.carry = 0
  late : 0 < start → ∃ read, Walked digits start read c.position c.carry

theorem walked_phaseAt {digits : List Nat} {start : Nat} (inside : start < fieldCount digits) (late : start ≠ 0) :
    ∃ read, Walked digits start read (phaseAt digits start).1 (phaseAt digits start).2 := by
  obtain ⟨n, bound, before, after, walk⟩ := reach_start inside late
  have phase : phaseAt digits start = ((n + 1) % digits.length, slotStart (cyclic digits) (n + 1) - 2 * start) := by
    rw [phaseAt, if_neg late, walk]
  rw [phase]
  refine ⟨n + 1, walk, ⟨after, ?_⟩, by omega, rfl, by omega, ?_⟩
  · intro j reached
    by_contra earlier
    have order := slotStart_mono (cyclic digits) (show j ≤ n by omega)
    have target : 2 * start ≤ slotStart (cyclic digits) j := reached
    omega
  · have digit := slotStart_succ (cyclic digits) n
    rw [Nat.add_sub_cancel]
    omega

theorem describes_ofDigits {digits : List Nat} {start : Nat} (inside : start < fieldCount digits) :
    (ofDigits digits start).Describes digits start where
  digits_eq := rfl
  ratio_eq := rfl
  early := by
    rintro rfl
    exact ⟨rfl, rfl⟩
  late late := walked_phaseAt inside (Nat.pos_iff_ne_zero.mp late)

theorem counted_of_short {digits : List Nat} {start : Nat} (short : 2 * fieldCount digits < countLimit)
    (inside : start < fieldCount digits) : Counted digits start := by
  refine ⟨by omega, ?_⟩
  by_cases early : start = 0
  · rw [early]
    show 0 < countLimit
    decide
  · obtain ⟨read, walked⟩ := walked_phaseAt inside early
    have bound := slotStart_mono (cyclic digits) walked.ends
    rw [Nat.two_mul, slotStart_cyclic_two] at bound
    have count := walked.carry_eq
    omega

/-- The first count of fields that 32 bits cannot hold: those of a cycle, twice the start, or those up to the digit that
reaches it. -/
inductive Overflow (digits : List Nat) (start : Nat) : Fault → Prop where
  | cycle (many : countLimit ≤ fieldCount digits) : Overflow digits start .addOverflow
  | target (few : fieldCount digits < countLimit) (inside : start < fieldCount digits) (many : countLimit ≤ 2 * start) :
    Overflow digits start .multiplyOverflow
  | walk (few : fieldCount digits < countLimit) (inside : start < fieldCount digits) (target : 2 * start < countLimit)
    (many : countLimit ≤ 2 * start + (phaseAt digits start).2) : Overflow digits start .addOverflow

section overflow

variable {digits : List Nat} {start : Nat} {f : Fault}

theorem Overflow.not_counted (h : Overflow digits start f) : ¬ Counted digits start := by
  rintro ⟨cycle, walk⟩
  cases h with
  | cycle many => omega
  | target few inside many => omega
  | walk few inside target many => omega

theorem Overflow.not_beyond (h : Overflow digits start f) :
    ¬ (fieldCount digits < countLimit ∧ fieldCount digits ≤ start) := by
  rintro ⟨few, late⟩
  cases h with
  | cycle many => omega
  | target few inside many => omega
  | walk few inside target many => omega

theorem Overflow.long (h : Overflow digits start f) : countLimit ≤ 2 * fieldCount digits := by
  by_contra short
  rcases Nat.lt_or_ge start (fieldCount digits) with inside | late
  · exact h.not_counted (counted_of_short (Nat.lt_of_not_le short) inside)
  · exact h.not_beyond ⟨by omega, late⟩

theorem Overflow.unique {g : Fault} (h : Overflow digits start f) (h' : Overflow digits start g) : f = g := by
  cases h with
  | cycle many =>
    cases h' with
    | cycle => rfl
    | target few => omega
    | walk => rfl
  | target few inside many =>
    cases h' with
    | cycle more => omega
    | target => rfl
    | walk _ _ target => omega
  | walk few inside target many =>
    cases h' with
    | cycle => rfl
    | target _ _ more => omega
    | walk => rfl

theorem seek_overflow (few : fieldCount digits < countLimit) (inside : start < fieldCount digits)
    (failed : seek digits start = .error f) : Overflow digits start f := by
  unfold seek at failed
  simp only at failed
  split at failed
  next many =>
    cases failed
    exact .target few inside many
  next target =>
    split at failed
    next many =>
      cases failed
      exact .walk few inside (Nat.lt_of_not_le target) many
    next => cases failed

end overflow

inductive Parse (pattern : String) (start : Nat) : Except (Stop FilterError) Cadence → Prop where
  | empty (none : pattern = "") : Parse pattern start (.error (.error .noPattern))
  | stray {c : Char} {index : Nat} (stray : Stray pattern.toList c index) :
    Parse pattern start (.error (.error (.notADigit c index)))
  | overflow {f : Fault} (filled : pattern ≠ "") (numeric : ∀ c ∈ pattern.toList, Text.isDigit c = true)
    (overflow : Overflow (pattern.toList.map digitValue) start f) : Parse pattern start (.error (.fault f))
  | beyond (filled : pattern ≠ "") (numeric : ∀ c ∈ pattern.toList, Text.isDigit c = true)
    (few : fieldCount (pattern.toList.map digitValue) < countLimit)
    (late : fieldCount (pattern.toList.map digitValue) ≤ start) :
    Parse pattern start (.error (.error (.startBeyondCycle start (fieldCount (pattern.toList.map digitValue)))))
  | parsed (filled : pattern ≠ "") (numeric : ∀ c ∈ pattern.toList, Text.isDigit c = true)
    (inside : start < fieldCount (pattern.toList.map digitValue))
    (counted : Counted (pattern.toList.map digitValue) start) :
    Parse pattern start (.ok (ofDigits (pattern.toList.map digitValue) start))

theorem parse_parse (pattern : String) (start : Nat) : Parse pattern start (parse pattern start) := by
  by_cases none : pattern = ""
  · have empty : parse pattern start = .error (.error .noPattern) := by rw [none]; rfl
    rw [empty]
    exact .empty none
  · have filled : pattern.toList ≠ [] := fun nothing => none (String.toList_eq_nil_iff.mp nothing)
    rw [parse, if_neg filled]
    cases read : readDigits 0 pattern.toList with
    | error e =>
      obtain ⟨c, n, stray, rfl⟩ := (readDigits_eq_error_iff _ 0 e).mp read
      rw [Nat.zero_add]
      exact .stray stray
    | ok digits =>
      obtain ⟨numeric, rfl⟩ := readDigits_eq_ok read
      simp only
      split
      next many => exact .overflow none numeric (.cycle many)
      next few =>
        have few := Nat.lt_of_not_le few
        split
        next late => exact .beyond none numeric few late
        next inside =>
          have inside := Nat.lt_of_not_le inside
          cases found : seek (pattern.toList.map digitValue) start with
          | error f => exact .overflow none numeric (seek_overflow few inside found)
          | ok phase =>
            obtain ⟨rfl, walk⟩ := seek_eq_ok found
            exact .parsed none numeric inside ⟨few, walk⟩

/-- A pattern is turned away for the first thing that is wrong with it, and for no other reason; if nothing is, it is
read in full, and the walk to the start ends within two rounds. A count of its fields overflows only if two cycles have
more of them than 32 bits can count. -/
theorem parse_answers (pattern : String) (start : Nat) :
    let digits := pattern.toList.map digitValue
    let numeric := ∀ c ∈ pattern.toList, Text.isDigit c = true
    (parse pattern start = .error (.error .noPattern) ↔ pattern = "") ∧
      (∀ c index, parse pattern start = .error (.error (.notADigit c index)) ↔ Stray pattern.toList c index) ∧
      (∀ late fields, parse pattern start = .error (.error (.startBeyondCycle late fields)) ↔
        pattern ≠ "" ∧ numeric ∧ (fieldCount digits < countLimit ∧ fieldCount digits ≤ start) ∧ late = start ∧
          fields = fieldCount digits) ∧
      ((∃ c, parse pattern start = .ok c ∧ c.Describes digits start) ↔
        pattern ≠ "" ∧ numeric ∧ start < fieldCount digits ∧ Counted digits start) ∧
      (∀ f, parse pattern start = .error (.fault f) ↔ pattern ≠ "" ∧ numeric ∧ Overflow digits start f) ∧
      (2 * fieldCount digits < countLimit → (∀ f, ¬ Overflow digits start f) ∧
        (start < fieldCount digits → Counted digits start)) := by
  intro digits numeric
  have free (all : numeric) : ∀ c index, ¬ Stray pattern.toList c index :=
    fun c index stray => stray.not_numeric all
  have short : 2 * fieldCount digits < countLimit → (∀ f, ¬ Overflow digits start f) ∧
      (start < fieldCount digits → Counted digits start) :=
    fun short => ⟨fun _ overflow => absurd overflow.long (Nat.not_le_of_lt short), counted_of_short short⟩
  -- The parse is of one of five kinds, and in each the conditions of the other four fail.
  have answer := parse_parse pattern start
  generalize parse pattern start = result at answer
  cases answer with
  | empty none =>
    have all : numeric := by
      intro c member
      rw [none] at member
      cases member
    refine ⟨by simp [none], by simp [free all], by simp [none], by simp [none], by simp [none], short⟩
  | stray stray =>
    have filled : pattern ≠ "" := by
      rintro rfl
      cases stray.here
    have mixed : ¬ numeric := stray.not_numeric
    refine ⟨by simp [filled], ?_, by simp [mixed], by simp [mixed], by simp [mixed], short⟩
    intro c index
    constructor
    · intro same
      obtain ⟨rfl, rfl⟩ := FilterError.notADigit.inj (Stop.error.inj (Except.error.inj same))
      exact stray
    · intro other
      obtain ⟨rfl, rfl⟩ := stray.unique other
      rfl
  | @overflow f filled all overflow =>
    have uncounted : ¬ Counted digits start := overflow.not_counted
    refine ⟨by simp [filled], by simp [free all], ?_, by simp [uncounted], ?_, short⟩
    · intro late fields
      constructor
      · intro same
        cases same
      · rintro ⟨_, _, beyond, _⟩
        exact absurd beyond overflow.not_beyond
    · intro g
      constructor
      · intro same
        obtain rfl : f = g := Stop.fault.inj (Except.error.inj same)
        exact ⟨filled, all, overflow⟩
      · rintro ⟨_, _, other⟩
        rw [overflow.unique other]
  | beyond filled all few late =>
    have order : ¬ start < fieldCount digits := Nat.not_lt_of_le late
    have counts : ∀ f, ¬ Overflow digits start f := fun f overflow => overflow.not_beyond ⟨few, late⟩
    refine ⟨by simp [filled], by simp [free all], ?_, by simp [order], by simp [counts], short⟩
    intro other fields
    constructor
    · intro same
      obtain ⟨rfl, rfl⟩ := FilterError.startBeyondCycle.inj (Stop.error.inj (Except.error.inj same))
      exact ⟨filled, all, ⟨few, late⟩, rfl, rfl⟩
    · rintro ⟨_, _, _, rfl, rfl⟩
      rfl
  | parsed filled all inside counted =>
    have order : ¬ fieldCount digits ≤ start := Nat.not_le_of_lt inside
    have counts : ∀ f, ¬ Overflow digits start f := fun f overflow => overflow.not_counted counted
    refine ⟨by simp [filled], by simp [free all], by simp [order], ?_, by simp [counts], short⟩
    constructor
    · intro _
      exact ⟨filled, all, inside, counted⟩
    · intro _
      exact ⟨ofDigits digits start, rfl, describes_ofDigits inside⟩

example : parse "0203" 3 = .ok ⟨[0, 2, 0, 3], 2, 1, 2, 1, ⟨5, 8⟩, 3⟩ := rfl

end InverseTelecine.Cadence
