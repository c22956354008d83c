import InverseTelecine.Number.Rational.Text
import InverseTelecine.Proofs.Number.Arithmetic
import InverseTelecine.Proofs.Text.Numerals

namespace InverseTelecine

open Signed64 Text

namespace Rational

/-- One numeral, or two with a separator between, the first one that there is. The sign goes to the numerator. -/
inductive Reads : List Char → Rational → Prop where
  | whole {s : List Char} {n : ℤ} (num : Denotes s n) : Reads s ⟨n, 1⟩
  | ratio {front back : List Char} {c : Char} {n d : ℤ} (separates : c = '/' ∨ c = ':')
      (first : '/' ∉ front ∧ ':' ∉ front) (num : Denotes front n) (den : Denotes back d) (nonzero : d ≠ 0) :
      Reads (front ++ c :: back) ⟨d.sign * n, |d|⟩

variable {s front back : List Char} {a : Rational} {n d : ℤ} {c : Char}

theorem isTermSeparator_iff : isTermSeparator c = true ↔ c = '/' ∨ c = ':' := by
  simp only [isTermSeparator, Bool.or_eq_true, beq_iff_eq]

theorem no_separator_iff : (∀ c ∈ s, isTermSeparator c = false) ↔ '/' ∉ s ∧ ':' ∉ s := by
  constructor
  · intro free
    constructor
    · exact fun member => absurd (free _ member) (by decide)
    · exact fun member => absurd (free _ member) (by decide)
  · rintro ⟨stroke, colon⟩ c member
    apply Bool.eq_false_iff.mpr
    intro separates
    rcases isTermSeparator_iff.mp separates with rfl | rfl
    · exact stroke member
    · exact colon member

theorem isTermSeparator_of_blank (blank : isBlank c = true) : isTermSeparator c = false := by
  apply Bool.eq_false_iff.mpr
  intro separates
  rcases isTermSeparator_iff.mp separates with rfl | rfl
  · cases blank
  · cases blank

theorem separators_not_mem (h : Denotes s n) : '/' ∉ s ∧ ':' ∉ s := by
  have foreign : ∀ c ∈ ['/', ':'], ¬(isBlank c = true ∨ isDigit c = true ∨ c = '-' ∨ c = '+') := by decide
  constructor
  · exact fun member => foreign '/' (by decide) (h.chars _ member)
  · exact fun member => foreign ':' (by decide) (h.chars _ member)

theorem withSign_eq (nonzero : d ≠ 0) : withSign n d = ⟨d.sign * n, |d|⟩ := by
  unfold withSign
  split
  next negative => rw [Int.sign_eq_neg_one_of_neg negative, abs_of_neg negative, neg_one_mul]
  next positive =>
    have positive : 0 < d := by omega
    rw [Int.sign_eq_one_of_pos positive, abs_of_pos positive, one_mul]

theorem splitTerms_trim (s : List Char) :
    splitTerms (trim s) = match splitFirst? isTermSeparator s with
      | some (num, den) => (trim num, trim den)
      | none => (trim s, ['1']) := by
  obtain ⟨before, after, blankBefore, blankAfter, whole⟩ := padded_trim s
  -- White space is no separator, so trimming does not change which is the first.
  have surround := splitFirst?_surround (fun c member => isTermSeparator_of_blank (blankBefore c member))
    (fun c member => isTermSeparator_of_blank (blankAfter c member)) (trim s)
  rw [← whole] at surround
  unfold splitTerms
  cases found : splitFirst? isTermSeparator (trim s) with
  | none =>
    rw [found] at surround
    rw [surround]
    rfl
  | some parts =>
    obtain ⟨num, den⟩ := parts
    have front : trim (before ++ num) = trim num :=
      Padded.trim_eq ⟨before, [], blankBefore, .nil, (List.append_nil _).symm⟩
    have back : trim (den ++ after) = trim den := Padded.trim_eq ⟨[], after, .nil, blankAfter, rfl⟩
    rw [found] at surround
    rw [surround]
    simp only [Option.map_some, front, back]

theorem numbers?_of_free (free : '/' ∉ s ∧ ':' ∉ s) : numbers? s = some (n, d) ↔ Denotes s n ∧ d = 1 := by
  have one : integer? ['1'] = some 1 := by decide
  unfold numbers?
  rw [splitTerms_trim, splitFirst?_eq_none_iff.mpr (no_separator_iff.mpr free)]
  simp only [one, Option.bind_eq_bind, Option.bind_some, Option.bind_eq_some_iff, integer?_trim_eq_some_iff,
    Option.pure_def, Option.some.injEq, Prod.mk.injEq]
  exact ⟨fun ⟨_, num, same, one⟩ => ⟨same ▸ num, one.symm⟩, fun ⟨num, one⟩ => ⟨n, num, rfl, one.symm⟩⟩

theorem numbers?_of_separated (separates : c = '/' ∨ c = ':') (first : '/' ∉ front ∧ ':' ∉ front) :
    numbers? (front ++ c :: back) = some (n, d) ↔ Denotes front n ∧ Denotes back d := by
  unfold numbers?
  rw [splitTerms_trim, splitFirst?_append (no_separator_iff.mpr first) (isTermSeparator_iff.mpr separates)]
  simp only [Option.bind_eq_bind, Option.bind_eq_some_iff, integer?_trim_eq_some_iff, Option.pure_def,
    Option.some.injEq, Prod.mk.injEq]
  constructor
  · rintro ⟨_, num, _, den, rfl, rfl⟩
    exact ⟨num, den⟩
  · rintro ⟨num, den⟩
    exact ⟨n, num, d, den, rfl, rfl⟩

theorem numbers?_eq_some (read : numbers? s = some (n, d)) :
    Fits n ∧ Fits d ∧ (d ≠ 0 → Reads s ⟨d.sign * n, |d|⟩) := by
  cases split : splitFirst? isTermSeparator s with
  | none =>
    have free := no_separator_iff.mp (splitFirst?_eq_none_iff.mp split)
    obtain ⟨num, rfl⟩ := (numbers?_of_free free).mp read
    refine ⟨num.fits, by decide, fun _ => ?_⟩
    rw [Int.sign_one, one_mul, abs_one]
    exact .whole num
  | some parts =>
    obtain ⟨c, separates, rfl, before⟩ := splitFirst?_eq_some split
    have separates := isTermSeparator_iff.mp separates
    have first := no_separator_iff.mp before
    obtain ⟨num, den⟩ := (numbers?_of_separated separates first).mp read
    exact ⟨num.fits, den.fits, .ratio separates first num den⟩

theorem Reads.numbers? (h : Reads s a) : ∃ n d, numbers? s = some (n, d) ∧ d ≠ 0 ∧ a = ⟨d.sign * n, |d|⟩ := by
  cases h with
  | whole num =>
    refine ⟨_, 1, (numbers?_of_free (separators_not_mem num)).mpr ⟨num, rfl⟩, one_ne_zero, ?_⟩
    rw [Int.sign_one, one_mul, abs_one]
  | ratio separates first num den nonzero =>
    exact ⟨_, _, (numbers?_of_separated separates first).mpr ⟨num, den⟩, nonzero, rfl⟩

theorem signed_valid_iff (hn : Fits n) (hd : Fits d) (nonzero : d ≠ 0) :
    (⟨d.sign * n, |d|⟩ : Rational).Valid ↔ ¬Overflows n d := by
  obtain ⟨lowN, highN⟩ := hn
  obtain ⟨lowD, highD⟩ := hd
  have valid : (⟨d.sign * n, |d|⟩ : Rational).Valid ↔ Fits (d.sign * n) ∧ Fits |d| ∧ 0 < |d| :=
    ⟨fun h => ⟨h.num, h.den, h.positive⟩, fun ⟨num, den, positive⟩ => ⟨num, den, positive⟩⟩
  rw [valid, Overflows]
  simp only [Fits, least, greatest] at *
  rcases lt_or_gt_of_ne nonzero with negative | positive
  · rw [Int.sign_eq_neg_one_of_neg negative, abs_of_neg negative]
    omega
  · rw [Int.sign_eq_one_of_pos positive, abs_of_pos positive]
    omega

theorem ofTerms?_of_ne (nonzero : d ≠ 0) :
    ofTerms? n d = (signed n d).map some := if_neg nonzero

theorem read?_iff (s : List Char) :
    (∀ a, read? s = .ok (some a) ↔ Reads s a ∧ a.Valid) ∧
      ∀ f, read? s = .error f ↔ f = .negateOverflow ∧ ∃ a, Reads s a ∧ ¬a.Valid := by
  have only : ∀ a, Reads s a → ∀ n d, numbers? s = some (n, d) → d ≠ 0 ∧ a = ⟨d.sign * n, |d|⟩ := by
    intro a reads n d found
    obtain ⟨n', d', other, nonzero, rfl⟩ := reads.numbers?
    obtain ⟨rfl, rfl⟩ := Prod.mk.inj (Option.some.inj (found.symm.trans other))
    exact ⟨nonzero, rfl⟩
  unfold read?
  cases found : numbers? s with
  | none =>
    have unread : ∀ a, ¬Reads s a := by
      intro a reads
      obtain ⟨n, d, other, _⟩ := reads.numbers?
      rw [found] at other
      cases other
    simp [unread]
  | some terms =>
    obtain ⟨n, d⟩ := terms
    obtain ⟨hn, hd, reads⟩ := numbers?_eq_some found
    by_cases zero : d = 0
    · have unread : ∀ a, ¬Reads s a := fun a reads => (only a reads n d found).1 zero
      simp [ofTerms?, zero, unread]
    · have reads := reads zero
      have valid := signed_valid_iff hn hd zero
      have same : ∀ a, Reads s a ↔ a = ⟨d.sign * n, |d|⟩ :=
        fun a => ⟨fun other => (only a other n d found).2, fun same => same ▸ reads⟩
      by_cases lost : Overflows n d
      · simp [ofTerms?_of_ne zero, signed_of_overflows lost, Except.map, same, valid, lost, eq_comm]
      · simp only [ofTerms?_of_ne zero, signed_of_not_overflows lost, withSign_eq zero, Except.map, same]
        simp [valid, lost, eq_comm]

theorem parse_eq_ok_iff {s : String} : parse s = .ok a ↔ Reads s.toList a ∧ a.Valid := by
  rw [← (read?_iff s.toList).1, parse]
  rcases read? s.toList with f | _ | b
  · simp
  · simp
  · simp

theorem parse_eq_fault_iff {s : String} {f : Fault} :
    parse s = .error (.fault f) ↔ f = .negateOverflow ∧ ∃ a, Reads s.toList a ∧ ¬a.Valid := by
  rw [← (read?_iff s.toList).2, parse]
  rcases read? s.toList with f | _ | b
  · simp
  · simp
  · simp

theorem parse_of_not_reads {s : String} (unread : ∀ a, ¬Reads s.toList a) :
    parse s = .error (.error (.badParameter ("invalid rational '" ++ String.ofList (trim s.toList) ++ "'"))) := by
  obtain ⟨read, fault⟩ := read?_iff s.toList
  rw [parse]
  cases came : read? s.toList with
  | error f =>
    obtain ⟨_, a, reads, _⟩ := (fault f).mp came
    exact absurd reads (unread a)
  | ok answer =>
    cases answer with
    | none => rfl
    | some a => exact absurd ((read a).mp came).1 (unread a)

theorem Reads.of_padded {core : List Char} (h : Reads core a) (padded : Padded s core) : Reads s a := by
  obtain ⟨before, after, blankBefore, blankAfter, rfl⟩ := padded
  cases h with
  | whole num => exact .whole (num.of_padded ⟨before, after, blankBefore, blankAfter, rfl⟩)
  | @ratio front back c n d separates first num den nonzero =>
    have num : Denotes (before ++ front) n := num.of_padded ⟨before, [], blankBefore, .nil, (List.append_nil _).symm⟩
    have den : Denotes (back ++ after) d := den.of_padded ⟨[], after, .nil, blankAfter, rfl⟩
    have pieces : before ++ (front ++ c :: back) ++ after = before ++ front ++ c :: (back ++ after) := by
      simp only [List.append_assoc, List.cons_append]
    rw [pieces]
    exact .ratio separates (separators_not_mem num) num den nonzero

theorem Valid.reads_terms (h : a.Valid) (separates : c = '/' ∨ c = ':') (num : Padded front (decimal a.num))
    (den : Padded back (decimal a.den)) : Reads (front ++ c :: back) a := by
  have num : Denotes front a.num := ⟨_, num, decimal_spells h.num⟩
  have den : Denotes back a.den := ⟨_, den, decimal_spells h.den⟩
  have reads := Reads.ratio separates (separators_not_mem num) num den h.positive.ne'
  rwa [Int.sign_eq_one_of_pos h.positive, one_mul, abs_of_pos h.positive] at reads

theorem Valid.reads_text (h : a.Valid) : Reads a.text.toList a := by
  unfold text
  split
  next whole =>
    have num : Denotes (decimal a.num) a.num := ⟨_, .refl _, decimal_spells h.num⟩
    have reads := Reads.whole num
    rw [← whole] at reads
    rwa [decimalText, String.toList_ofList]
  next =>
    have both : a.terms.toList = decimal a.num ++ '/' :: decimal a.den := by
      simp only [terms, decimalText, String.toList_append, String.toList_ofList, List.append_assoc]
      rfl
    rw [both]
    exact h.reads_terms (.inl rfl) (.refl _) (.refl _)

/-- A text is read exactly if it is a 64-bit numeral, or two with the first separator between them and the second not of
zero, and then as these terms with the sign in the numerator; but the least number cannot take the sign of a negative
denominator, nor lose it there. What is written is read back, with white space wherever it may be. -/
theorem parse_exact :
    (∀ (s : String) (a : Rational), parse s = .ok a ↔ Reads s.toList a ∧ a.Valid) ∧
      (∀ (s : String) (f : Fault),
        parse s = .error (.fault f) ↔ f = .negateOverflow ∧ ∃ a, Reads s.toList a ∧ ¬a.Valid) ∧
      (∀ s : String, (∀ a, ¬Reads s.toList a) →
        parse s = .error (.error (.badParameter ("invalid rational '" ++ String.ofList (trim s.toList) ++ "'")))) ∧
      (∀ n d : ℤ, Fits n → Fits d → d ≠ 0 →
        ((⟨d.sign * n, |d|⟩ : Rational).Valid ↔ ¬(d < 0 ∧ (n = least ∨ d = least)))) ∧
      ∀ a : Rational, a.Valid →
        parse a.text = .ok a ∧ (∀ s : String, Padded s.toList a.text.toList → parse s = .ok a) ∧
          ∀ (c : Char) (front back : List Char), c = '/' ∨ c = ':' → Padded front (decimal a.num) →
            Padded back (decimal a.den) → ∀ s : String, Padded s.toList (front ++ c :: back) → parse s = .ok a := by
  refine ⟨fun s a => parse_eq_ok_iff, fun s f => parse_eq_fault_iff, fun s => parse_of_not_reads,
    fun n d => signed_valid_iff, ?_⟩
  intro a valid
  refine ⟨parse_eq_ok_iff.mpr ⟨valid.reads_text, valid⟩, ?_, ?_⟩
  · intro s padded
    exact parse_eq_ok_iff.mpr ⟨valid.reads_text.of_padded padded, valid⟩
  · intro c front back separates num den s padded
    exact parse_eq_ok_iff.mpr ⟨(valid.reads_terms separates num den).of_padded padded, valid⟩

theorem parse_exact_film :
    let film : Rational := ⟨-24000, 1001⟩
    film.text = "-24000/1001" ∧ parse "-24000/1001" = .ok film ∧ parse "\t-24000/1001 " = .ok film ∧
      parse " -24000 :\n1001" = .ok film ∧ (⟨(-1001 : ℤ).sign * 24000, |(-1001 : ℤ)|⟩ : Rational).Valid ∧
      parse "24000/1001:1" = .error (.error (.badParameter "invalid rational '24000/1001:1'")) := by
  intro film
  have spelled : film.text = "-24000/1001" := by decide +kernel
  obtain ⟨_, _, unread, signs, written⟩ := parse_exact
  obtain ⟨back, around, between⟩ := written film ⟨by decide, by decide, by decide⟩
  rw [spelled] at back around
  refine ⟨spelled, back, ?_, ?_, ?_, ?_⟩
  · exact around _ ⟨['\t'], [' '], by decide, by decide, by decide⟩
  · have num : Padded "-24000 ".toList (decimal film.num) := ⟨[], [' '], by decide, by decide, by decide +kernel⟩
    have den : Padded "\n1001".toList (decimal film.den) := ⟨['\n'], [], by decide, by decide, by decide +kernel⟩
    exact between ':' _ _ (.inr rfl) num den _ ⟨[' '], [], by decide, by decide, by decide⟩
  · exact (signs 24000 (-1001) (by decide) (by decide) (by decide)).mpr (by decide)
  · apply unread
    intro a reads
    obtain ⟨n, d, read, _⟩ := reads.numbers?
    have refused : numbers? "24000/1001:1".toList = none := by decide +kernel
    rw [refused] at read
    cases read

end Rational

end InverseTelecine
