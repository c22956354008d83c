import InverseTelecine.Proofs.Options.Rejection
import InverseTelecine.Proofs.Options.Values

namespace InverseTelecine

theorem forall_mem_of_forall₂ {α β : Type} {R : α → β → Prop} {P : β → Prop} {as : List α} {bs : List β}
    (h : List.Forall₂ R as bs) (each : ∀ a ∈ as, ∀ b, R a b → P b) : ∀ b ∈ bs, P b := by
  induction h with
  | nil => exact List.forall_mem_nil _
  | cons first _ ih =>
    rw [List.forall_mem_cons] at each ⊢
    exact ⟨each.1 _ first, ih each.2⟩

open Text

namespace Options

structure Named where
  key : Key
  value : List Char

def Named.text (n : Named) : List Char := n.key.name ++ ['='] ++ n.value

inductive Part (c : Options) : List Char → Prop where
  | value {x : Key} {value : List Char} (reads : x.Reads c value) : Part c value
  | named {n : Named} (reads : n.key.Reads c n.value) : Part c n.text

section parts

variable {c : Options} (valid : c.Valid)

theorem splitFirst?_named (x : Key) (value : List Char) :
    splitFirst? (· == '=') (Named.text ⟨x, value⟩) = some (x.name, value) := by
  have before : ∀ ch ∈ x.name, (ch == '=') = false := by cases x <;> decide
  rw [Named.text, List.append_assoc]
  exact splitFirst?_append before (by decide) value

theorem Named.of_padded {n : Named} {part : List Char} (padded : Padded n.text part) :
    ∃ value, part = Named.text ⟨n.key, value⟩ ∧ Padded n.value value :=
  padded.behind n.key.name_shows (by simp)

include valid

theorem splitFirst?_value {x : Key} {value : List Char} (reads : x.Reads c value) :
    splitFirst? (· == '=') value = none := by
  rw [splitFirst?_eq_none_iff]
  intro ch member
  have foreign := reads.not_mem valid '=' (by decide)
  rw [beq_eq_false_iff_ne]
  rintro rfl
  exact foreign member

theorem Part.of_padded {s part : List Char} (h : Part c s) (padded : Padded s part) : Part c part := by
  cases h with
  | value reads => exact .value (reads.of_padded valid padded)
  | named reads =>
    obtain ⟨value, rfl, inner⟩ := Named.of_padded padded
    exact .named (reads.of_padded valid inner)

theorem Part.colon_free {s : List Char} (h : Part c s) : ':' ∉ s := by
  cases h with
  | value reads => exact reads.not_mem valid ':' (by decide)
  | @named n reads =>
    have name : ':' ∉ n.key.name ++ ['='] := by cases n.key <;> decide
    rw [Named.text, List.mem_append, not_or]
    exact ⟨name, reads.not_mem valid ':' (by decide)⟩

theorem Part.dropOwnName_eq {s : List Char} (h : Part c s) : dropOwnName s = s := by
  cases h with
  | value reads =>
    have other : s ≠ ownName := by
      rintro rfl
      exact reads.not_mem valid 'd' (by decide) (by decide)
    rw [dropOwnName, splitFirst?_value valid reads]
    exact if_neg other
  | @named n reads =>
    have other : n.key.name ≠ ownName := by cases n.key <;> decide
    rw [dropOwnName, splitFirst?_named]
    simp only [n.key.trim_name, if_neg other]

end parts

theorem dropOwnName_of_parts {s : List Char}
    (own : ∀ part ∈ (splitAll ':' s).filter fun part => trim part ≠ [], dropOwnName part = part) :
    dropOwnName s = s := by
  cases split : splitFirst? (· == '=') s with
  | none =>
    have other : s ≠ ownName := by
      rintro rfl
      exact absurd (own ownName (by decide)) (by decide)
    rw [dropOwnName, split]
    exact if_neg other
  | some found =>
    obtain ⟨name, rest⟩ := found
    obtain ⟨mark, isMark, rfl, before⟩ := splitFirst?_eq_some split
    obtain rfl : mark = '=' := eq_of_beq isMark
    rw [dropOwnName, split]
    apply if_neg
    intro named
    -- The name of the filter holds no colon, so it is dropped from the first part too, which gets shorter.
    have free : ':' ∉ name ++ ['='] := by
      intro member
      rcases List.mem_append.mp member with inside | last
      · have kept := (padded_trim name).mem (by decide) inside
        rw [named] at kept
        exact absurd kept (by decide)
      · exact absurd last (by decide)
    obtain ⟨first, others, pieces⟩ := List.exists_cons_of_ne_nil (splitAll_ne_nil ':' rest)
    have parts := splitAll_append free pieces
    rw [List.append_assoc, List.singleton_append] at parts
    have shows : trim (name ++ ['='] ++ first) ≠ [] := trim_ne_nil (show '=' ∈ _ by simp) (by decide)
    have kept := own (name ++ ['='] ++ first)
      (List.mem_filter.mpr ⟨parts ▸ List.mem_cons_self, decide_eq_true shows⟩)
    rw [dropOwnName, List.append_assoc, List.singleton_append, splitFirst?_append before isMark] at kept
    simp only [if_pos named] at kept
    have length := congrArg List.length kept
    rw [List.length_append, List.length_cons] at length
    omega

/-- A way to write the options `c` down: some values by position and some by name, in any order; what is not given is
as by default. The parts that are not blank are these. -/
structure Spelling (c : Options) where
  before : List Char
  after : List Char
  prefixed : Bool
  segments : List (List Char)
  values : List (List Char)
  named : List Named
  blank_before : Blank before
  blank_after : Blank after
  filled : (segments.filter fun s => trim s ≠ []) = values ++ named.map Named.text
  reads_values : List.Forall₂ (Key.Reads c) (Key.all.take values.length) values
  reads_named : ∀ n ∈ named, n.key.Reads c n.value
  omitted : ∀ x ∈ Key.all.drop values.length, x ∉ named.map Named.key → x.Same c default

namespace Spelling

variable {c : Options}

def body (w : Spelling c) : List Char := List.intercalate [':'] w.segments

def text (w : Spelling c) : List Char :=
  w.before ++ ((if w.prefixed then ownName ++ ['='] else []) ++ w.body) ++ w.after

theorem part_of_mem (w : Spelling c) : ∀ s ∈ w.values ++ w.named.map Named.text, Part c s := by
  intro s member
  rcases List.mem_append.mp member with value | named
  · exact forall_mem_of_forall₂ w.reads_values (fun _ _ _ reads => .value reads) s value
  · obtain ⟨n, given, rfl⟩ := List.mem_map.mp named
    exact .named (w.reads_named n given)

theorem parts_body (w : Spelling c) (valid : c.Valid) :
    ((splitAll ':' w.body).filter fun s => trim s ≠ []) = w.values ++ w.named.map Named.text := by
  have free : ∀ s ∈ w.segments, ':' ∉ s := by
    intro s member
    by_cases shows : trim s = []
    · exact (trim_eq_nil_iff.mp shows).not_mem (by decide)
    · have given : s ∈ w.segments.filter fun s => trim s ≠ [] := List.mem_filter.mpr ⟨member, decide_eq_true shows⟩
      rw [w.filled] at given
      exact (w.part_of_mem s given).colon_free valid
  rw [← w.filled, body]
  cases none : w.segments with
  | nil => rfl
  | cons s segments => rw [← none, splitAll_intercalate free (none ▸ List.cons_ne_nil s segments)]

theorem parts_padded {s core : List Char} (padded : Padded s core) :
    List.Forall₂ Padded ((splitAll ':' s).filter fun part => trim part ≠ [])
      ((splitAll ':' core).filter fun part => trim part ≠ []) := by
  refine List.rel_filter ?_ (splitAll_padded (by decide) padded)
  intro part other around
  simp only [around.trim_eq]

theorem parts_text (w : Spelling c) (valid : c.Valid) :
    List.Forall₂ Padded (w.values ++ w.named.map Named.text) (parts w.text) := by
  have same : trim w.text = trim ((if w.prefixed then ownName ++ ['='] else []) ++ w.body) :=
    Padded.trim_eq ⟨w.before, w.after, w.blank_before, w.blank_after, rfl⟩
  rw [parts, same, ← w.parts_body valid]
  cases w.prefixed with
  | false =>
    have cut := parts_padded (padded_trim w.body)
    have own : ∀ part ∈ (splitAll ':' (trim w.body)).filter fun part => trim part ≠ [], dropOwnName part = part := by
      refine forall_mem_of_forall₂ cut fun s member part padded => ?_
      rw [w.parts_body valid] at member
      exact ((w.part_of_mem s member).of_padded valid padded).dropOwnName_eq valid
    simp only [Bool.false_eq_true, if_false, List.nil_append, dropOwnName_of_parts own]
    exact cut
  | true =>
    obtain ⟨rest, trimmed, padded⟩ := (padded_trim (ownName ++ ['='] ++ w.body)).behind (by decide) (by decide)
    have dropped : dropOwnName (ownName ++ ['='] ++ rest) = rest := by
      rw [dropOwnName, List.append_assoc, List.singleton_append, splitFirst?_append (by decide) (by decide)]
      exact if_pos (by decide)
    simp only [if_true, trimmed, dropped]
    exact parts_padded padded

end Spelling

section set

variable {c d : Options} {named : List Named} {parts : List (List Char)} (valid : c.Valid)
include valid

theorem setParts_named (reads : ∀ n ∈ named, n.key.Reads c n.value)
    (padded : List.Forall₂ Padded (named.map Named.text) parts)
    (left : ∀ x, Key.Same c d x ∨ x ∈ named.map Named.key) (names : Option (List (List Char))) :
    setParts d names parts = .ok c := by
  induction named generalizing d parts names with
  | nil =>
    cases padded
    have same : d = c := Key.eq_of_same fun x => (left x).resolve_right (List.not_mem_nil)
    rw [setParts, same]
  | cons n named ih =>
    rw [List.forall_mem_cons] at reads
    cases padded with
    | cons first others =>
      obtain ⟨value, rfl, inner⟩ := Named.of_padded first
      have assigned := (reads.1.of_padded valid inner).assign valid d
      simp only [setParts, splitFirst?_named, n.key.trim_name, assigned]
      refine ih reads.2 others (fun x => ?_) none
      rcases left x with same | given
      · exact .inl (Key.same_put (.inl same))
      · rcases List.mem_cons.mp given with rfl | later
        · exact .inl (Key.same_put (.inr rfl))
        · exact .inr later

theorem setParts_values {keys : List Key} {values : List (List Char)}
    (positions : List.Forall₂ (Key.Reads c) keys values) (reads : ∀ n ∈ named, n.key.Reads c n.value)
    (padded : List.Forall₂ Padded (values ++ named.map Named.text) parts)
    (left : ∀ x, Key.Same c d x ∨ x ∈ keys ∨ x ∈ named.map Named.key) (more : List Key) :
    setParts d (some ((keys ++ more).map Key.name)) parts = .ok c := by
  induction positions generalizing d parts with
  | nil => exact setParts_named valid reads padded (fun x => (left x).imp_right (·.resolve_left List.not_mem_nil)) _
  | @cons key value keys values read _ ih =>
    cases padded with
    | cons first others =>
      have own := read.of_padded valid first
      simp only [List.cons_append, List.map_cons, setParts, splitFirst?_value valid own, own.assign valid d]
      refine ih others fun x => ?_
      rcases left x with same | position | given
      · exact .inl (Key.same_put (.inl same))
      · rcases List.mem_cons.mp position with rfl | later
        · exact .inl (Key.same_put (.inr rfl))
        · exact .inr (.inl later)
      · exact .inr (.inr given)

theorem Spelling.parse_text (w : Spelling c) : parse (String.ofList w.text) = .ok c := by
  have left : ∀ x, Key.Same c default x ∨ x ∈ Key.all.take w.values.length ∨ x ∈ w.named.map Named.key := by
    intro x
    by_cases given : x ∈ w.named.map Named.key
    · exact .inr (.inr given)
    · have known : x ∈ Key.all := by cases x <;> decide
      rw [← Key.all.take_append_drop w.values.length] at known
      rcases List.mem_append.mp known with position | behind
      · exact .inr (.inl position)
      · exact .inl (w.omitted x behind given)
  have set := setParts_values valid w.reads_values w.reads_named (w.parts_text valid) left (Key.all.drop w.values.length)
  rw [List.take_append_drop, ← Key.positional_eq] at set
  have said : read (String.ofList w.text) = .ok c := by rw [read, String.toList_ofList, set]
  simp only [parse, said, cadence_of_valid valid]

end set

theorem Named.shows (n : Named) : trim n.text ≠ [] := trim_ne_nil (show '=' ∈ _ by simp [text]) (by decide)

theorem reads_parity (c : Options) : Key.Reads c .first c.first.name.toList := by
  have each : ∀ p : FieldParity, String.ofList ((trim p.name.toList).map Char.toLower) ∈ p.spellings := by
    intro p
    cases p <;> decide
  exact each c.first

theorem reads_start {c : Options} (valid : c.Valid) : Key.Reads c .start (Nat.toDigits 10 c.start) := by
  have shows : ∀ ch ∈ Nat.toDigits 10 c.start, isBlank ch = false :=
    fun ch member => isBlank_of_digit (Nat.isDigit_of_mem_toDigits (by decide) (by decide) member)
  have bound := valid.start_le
  have fits : Signed64.Fits (c.start : ℤ) := by
    simp only [greatestStart] at bound
    constructor
    · simp only [Signed64.least]
      omega
    · simp only [Signed64.greatest]
      omega
  have digits : decimal (c.start : ℤ) = Nat.toDigits 10 c.start := if_neg (by omega)
  rw [Key.Reads, (padded_trim _).eq_of_shows shows, ← digits]
  exact integer?_decimal fits

def plain (c : Options) : List Named :=
  [⟨.first, c.first.name.toList⟩, ⟨.pattern, c.pattern.toList⟩, ⟨.start, Nat.toDigits 10 c.start⟩]

def Spelling.plain {c : Options} (valid : c.Valid) : Spelling c where
  before := []
  after := []
  prefixed := false
  segments := c.plain.map Named.text
  values := []
  named := c.plain
  blank_before := .nil
  blank_after := .nil
  filled := by
    rw [List.filter_eq_self.mpr]
    · rfl
    · intro s member
      obtain ⟨n, _, rfl⟩ := List.mem_map.mp member
      exact decide_eq_true n.shows
  reads_values := .nil
  reads_named := by
    simp only [Options.plain, List.forall_mem_cons]
    exact ⟨reads_parity c, rfl, reads_start valid, List.forall_mem_nil _⟩
  omitted := by
    intro x member absent
    exact absurd member absent

theorem Spelling.plain_text {c : Options} (valid : c.Valid) : String.ofList (plain valid).text = c.text := by
  have first : "first_field=".toList = Key.first.name ++ ['='] := by decide
  have pattern : ":pattern=".toList = [':'] ++ (Key.pattern.name ++ ['=']) := by decide
  have start : ":start_frame=".toList = [':'] ++ (Key.start.name ++ ['=']) := by decide
  have digits : (toString c.start).toList = Nat.toDigits 10 c.start := Nat.toList_repr
  have whole : (plain valid).text = List.intercalate [':'] (c.plain.map Named.text) := by
    simp only [text, plain, body, Bool.false_eq_true, if_false, List.nil_append, List.append_nil]
  rw [← String.toList_inj, String.toList_ofList, whole]
  -- Not `rw`: the equation of a definition made of literals is slow to derive.
  delta Options.text
  simp only [Options.plain, List.map_cons, List.map_nil, String.toList_append, first, pattern, start, digits,
    List.intercalate_cons_cons, List.intercalate_singleton, Named.text, List.append_assoc]

theorem parse_eq_fault {s : String} {f : Fault} (failed : parse s = .error (.fault f)) :
    ∃ c, read s = .ok c ∧ c.cadence = .error (.fault f) := by
  unfold parse at failed
  split at failed
  · cases failed
  next c said =>
    split at failed
    next stop described =>
      cases failed
      exact ⟨c, said, described⟩
    · cases failed

/-- Whichever way valid options are written, with values by position or by name and blank parts between them, they are
read as they are; and so is their text. What is read from any text describes a cadence and is read again from its own
text; what is not read is turned away as a description of no stream, unless its pattern is so long that the fields of
a cycle cannot be counted in 32 bits. -/
theorem every_spelling_parses :
    (∀ c : Options, c.Valid → (∀ w : Spelling c, parse (String.ofList w.text) = .ok c) ∧ parse c.text = .ok c) ∧
      ∀ s : String, (∀ c, parse s = .ok c → (∃ k, c.cadence = .ok k) ∧ parse c.text = .ok c) ∧
        (∀ e, parse s = .error (.error e) → e.isSetup = true) ∧
        ∀ f, parse s = .error (.fault f) →
          f = .addOverflow ∧ ∃ c, read s = .ok c ∧ c.TooLong ∧ 477218589 ≤ c.pattern.toList.length := by
  have written : ∀ c : Options, c.Valid → parse c.text = .ok c := by
    intro c valid
    rw [← Spelling.plain_text valid]
    exact (Spelling.plain valid).parse_text valid
  refine ⟨fun c valid => ⟨fun w => w.parse_text valid, written c valid⟩, fun s => ⟨?_, fun e => parse_eq_error, ?_⟩⟩
  · intro c parsed
    have accepted := cadence_of_parse parsed
    exact ⟨accepted, written c ((valid_iff c).mpr accepted)⟩
  · intro f failed
    obtain ⟨c, said, described⟩ := parse_eq_fault failed
    obtain ⟨long, same⟩ := (cadence_eq_fault_iff c f).mp described
    exact ⟨same, c, said, long, long.length_ge⟩

def Spelling.mixed : Spelling ⟨.bottom, "2332", 1⟩ where
  before := [' ']
  after := ['\n']
  prefixed := true
  segments := [[], " B ".toList, "2332".toList, [], "start_frame=+01".toList]
  values := [" B ".toList, "2332".toList]
  named := [⟨.start, "+01".toList⟩]
  blank_before := by decide
  blank_after := by decide
  filled := by decide
  reads_values := .cons (show String.ofList _ ∈ _ by decide) (.cons rfl .nil)
  reads_named := by
    intro n member
    rw [List.mem_singleton.mp member]
    show integer? _ = some 1
    decide
  omitted := fun x member absent => absurd member absent

theorem every_spelling_parses_mixed :
    parse " detelecine=: B :2332::start_frame=+01\n" = .ok ⟨.bottom, "2332", 1⟩ ∧
      parse "first_field=bottom:pattern=2332:start_frame=1" = .ok ⟨.bottom, "2332", 1⟩ := by
  have valid : Valid ⟨.bottom, "2332", 1⟩ := ⟨⟨by decide, by decide⟩, by decide, by decide⟩
  obtain ⟨read, own⟩ := every_spelling_parses.1 _ valid
  have text : String.ofList Spelling.mixed.text = " detelecine=: B :2332::start_frame=+01\n" := by decide
  rw [← text]
  exact ⟨read .mixed, own⟩

end Options

end InverseTelecine
