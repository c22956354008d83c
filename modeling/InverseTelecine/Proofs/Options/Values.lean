import InverseTelecine.Options
import InverseTelecine.Proofs.Cadence.Parsing
import InverseTelecine.Proofs.Text.Pieces

namespace InverseTelecine

open Text

theorem FieldParity.parse_of_spelling {p : FieldParity} {value : List Char}
    (h : String.ofList ((trim value).map Char.toLower) ∈ p.spellings) : parse value = .ok p := by
  have apart : ∀ s ∈ bottom.spellings, s ∉ top.spellings := by decide
  unfold parse
  cases p with
  | top => exact if_pos h
  | bottom => simp only [if_neg (apart _ h), if_pos h]

namespace Options

structure Numeric (c : Options) : Prop where
  digits : ∀ d ∈ c.pattern.toList, isDigit d = true
  start_le : c.start ≤ greatestStart

def fields (c : Options) : Nat := Cadence.fieldCount (c.pattern.toList.map Cadence.digitValue)

/-- The start is in the first cycle, and the fields of a cycle can be counted. -/
structure Valid (c : Options) : Prop extends Numeric c where
  start_lt : c.start < c.fields
  fields_lt : c.fields < Cadence.countLimit

theorem Numeric.small {c : Options} (h : c.Numeric) : ∀ d ∈ c.pattern.toList.map Cadence.digitValue, d ≤ 9 := by
  intro d member
  obtain ⟨ch, found, rfl⟩ := List.mem_map.mp member
  exact Cadence.digitValue_le (h.digits ch found)

theorem Valid.counted {c : Options} (h : c.Valid) :
    Cadence.Counted (c.pattern.toList.map Cadence.digitValue) c.start := by
  have carry := Cadence.phaseAt_carry_le h.small h.start_lt
  have early := h.start_le
  refine ⟨h.fields_lt, ?_⟩
  simp only [greatestStart] at early
  simp only [Cadence.countLimit]
  omega

theorem cadence_of_valid {c : Options} (h : c.Valid) :
    c.cadence = .ok (.ofDigits (c.pattern.toList.map Cadence.digitValue) c.start) := by
  rw [cadence, if_neg (Nat.not_lt.mpr h.start_le)]
  exact Cadence.parse_of_readDigits (Cadence.readDigits_of_digits h.digits 0) h.start_lt h.counted

theorem valid_iff (c : Options) : c.Valid ↔ ∃ k, c.cadence = .ok k := by
  constructor
  · exact fun valid => ⟨_, cadence_of_valid valid⟩
  · rintro ⟨k, accepted⟩
    obtain ⟨read, inside, _, _, counted⟩ := cadence_eq_ok accepted
    obtain ⟨digits, same⟩ := Cadence.readDigits_eq_ok read
    have total : Cadence.fieldCount k.digits = c.fields := congrArg Cadence.fieldCount same
    refine ⟨⟨digits, ?_⟩, total ▸ inside, total ▸ counted.cycle⟩
    apply Nat.le_of_not_lt
    intro late
    rw [cadence, if_pos late] at accepted
    cases accepted

/-- The fields of a cycle are more than 32 bits can count. -/
structure TooLong (c : Options) : Prop extends Numeric c where
  limit_le : Cadence.countLimit ≤ c.fields

theorem fieldCount_le {digits : List Nat} (small : ∀ d ∈ digits, d ≤ 9) : Cadence.fieldCount digits ≤ 9 * digits.length := by
  induction digits with
  | nil => exact Nat.zero_le _
  | cons d digits ih =>
    rw [List.forall_mem_cons] at small
    have rest := ih small.2
    have first := small.1
    show d + Cadence.fieldCount digits ≤ 9 * (digits.length + 1)
    omega

theorem TooLong.length_ge {c : Options} (h : c.TooLong) : 477218589 ≤ c.pattern.toList.length := by
  have bound := fieldCount_le h.small
  have limit := h.limit_le
  rw [List.length_map] at bound
  simp only [Options.fields, Cadence.countLimit] at limit
  omega

theorem cadence_eq_fault_iff (c : Options) (f : Fault) :
    c.cadence = .error (.fault f) ↔ c.TooLong ∧ f = .addOverflow := by
  constructor
  · intro failed
    rw [cadence] at failed
    split at failed
    · cases failed
    next early =>
      have early := Nat.le_of_not_lt early
      have parsed := Cadence.parse_parse c.pattern c.start
      rw [failed] at parsed
      cases parsed with
      | overflow _ numeric overflow =>
        -- So early a start is reached in 32 bits, if the fields of a cycle are counted in them.
        have long : Cadence.countLimit ≤ c.fields := by
          by_contra short
          have few : c.fields < Cadence.countLimit := Nat.lt_of_not_le short
          have inside : c.start < c.fields := Nat.lt_of_not_le fun late => overflow.not_beyond ⟨few, late⟩
          have valid : c.Valid := ⟨⟨numeric, early⟩, inside, few⟩
          exact overflow.not_counted valid.counted
        exact ⟨⟨⟨numeric, early⟩, long⟩, overflow.unique (.cycle long)⟩
  · rintro ⟨long, rfl⟩
    have filled : c.pattern.toList ≠ [] := by
      intro none
      have length := long.length_ge
      rw [none] at length
      cases length
    rw [cadence, if_neg (Nat.not_lt.mpr long.start_le), Cadence.parse, if_neg filled,
      Cadence.readDigits_of_digits long.digits]
    exact if_pos long.limit_le

inductive Key where
  | first | pattern | start
deriving DecidableEq

namespace Key

def all : List Key := [first, pattern, start]

def name : Key → List Char
  | first => "first_field".toList
  | pattern => "pattern".toList
  | start => "start_frame".toList

/-- The value says what `c` has for the key. -/
def Reads (c : Options) : Key → List Char → Prop
  | first, value => String.ofList ((trim value).map Char.toLower) ∈ c.first.spellings
  | pattern, value => value = c.pattern.toList
  | start, value => integer? (trim value) = some (c.start : ℤ)

def Same (c d : Options) : Key → Prop
  | first => d.first = c.first
  | pattern => d.pattern = c.pattern
  | start => d.start = c.start

def put (c d : Options) : Key → Options
  | first => { d with first := c.first }
  | pattern => { d with pattern := c.pattern }
  | start => { d with start := c.start }

theorem positional_eq : positional = all.map name := rfl

variable {c d : Options} {x y : Key} {value core : List Char}

theorem eq_of_same (same : ∀ x, Same c d x) : d = c := by
  cases c
  cases d
  have first := same first
  have pattern := same pattern
  have start := same start
  simp only [Same] at first pattern start
  rw [first, pattern, start]

theorem same_put (h : Same c d y ∨ y = x) : Same c (put c d x) y := by
  cases x <;> cases y <;> simp_all [Same, put]

theorem name_shows (x : Key) : ∀ ch ∈ x.name ++ ['='], isBlank ch = false := by
  cases x <;> decide

theorem trim_name (x : Key) : trim x.name = x.name := by
  cases x <;> decide

theorem Reads.assign (valid : c.Valid) (h : x.Reads c value) (d : Options) :
    d.assign x.name value = .ok (put c d x) := by
  cases x with
  | first =>
    have parsed := FieldParity.parse_of_spelling h
    rw [Options.assign, if_pos (by rfl), parsed]
    rfl
  | pattern =>
    obtain rfl : value = c.pattern.toList := h
    rw [Options.assign, if_neg (by decide), if_pos (by rfl), String.ofList_toList]
    rfl
  | start =>
    have read : readStart value = .ok c.start := by
      have bound := valid.start_le
      simp only [Reads] at h
      rw [readStart, h]
      simp only
      rw [if_pos ⟨by omega, by omega⟩, Int.toNat_natCast]
    rw [Options.assign, if_neg (by decide), if_neg (by decide), if_pos (by rfl), read]
    rfl

theorem Reads.of_padded (valid : c.Valid) (h : x.Reads c value) (padded : Padded value core) : x.Reads c core := by
  cases x with
  | first => rwa [Reads, ← padded.trim_eq]
  | pattern =>
    obtain rfl : value = c.pattern.toList := h
    exact padded.eq_of_shows fun ch member => isBlank_of_digit (valid.digits ch member)
  | start => rwa [Reads, ← padded.trim_eq]

theorem Reads.not_mem (valid : c.Valid) (h : x.Reads c value) : ∀ ch ∈ [':', '=', 'd'], ch ∉ value := by
  intro ch mark member
  have visible : ∀ ch ∈ [':', '=', 'd'], isBlank ch = false := by decide
  have inside := (padded_trim value).mem (visible ch mark) member
  cases x with
  | first =>
    have foreign : ∀ s ∈ FieldParity.top.spellings ++ FieldParity.bottom.spellings,
        ∀ ch ∈ [':', '=', 'd'], ch.toLower ∉ s.toList := by decide
    have spelled : String.ofList ((trim value).map Char.toLower) ∈
        FieldParity.top.spellings ++ FieldParity.bottom.spellings := by
      simp only [Reads] at h
      cases parity : c.first with
      | top => exact List.mem_append_left _ (parity ▸ h)
      | bottom => exact List.mem_append_right _ (parity ▸ h)
    apply foreign _ spelled ch mark
    rw [String.toList_ofList]
    exact List.mem_map_of_mem inside
  | pattern =>
    have foreign : ∀ ch ∈ [':', '=', 'd'], isDigit ch ≠ true := by decide
    obtain rfl : value = c.pattern.toList := h
    exact foreign ch mark (valid.digits ch member)
  | start =>
    have foreign : ∀ ch ∈ [':', '=', 'd'], ¬ (isDigit ch = true ∨ ch = '-' ∨ ch = '+') := by decide
    exact foreign ch mark (integer?_chars h ch inside)

end Key

end Options

end InverseTelecine
