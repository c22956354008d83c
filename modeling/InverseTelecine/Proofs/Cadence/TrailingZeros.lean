import InverseTelecine.Proofs.Cadence.Phase
import InverseTelecine.Proofs.Text.Numerals
import Mathlib.Data.List.DropRight

namespace InverseTelecine

theorem eq_rdropWhile_append {α : Type} [DecidableEq α] (xs : List α) (a : α) :
    ∃ count, xs = xs.rdropWhile (· = a) ++ List.replicate count a := by
  have same : xs.rtakeWhile (· = a) = List.replicate (xs.rtakeWhile (· = a)).length a := by
    apply List.eq_replicate_of_mem
    intro b member
    simpa using List.mem_rtakeWhile_imp member
  refine ⟨(xs.rtakeWhile (· = a)).length, ?_⟩
  rw [← same, List.rdropWhile, List.rtakeWhile, ← List.reverse_append, List.takeWhile_append_dropWhile,
    List.reverse_reverse]

theorem getLast?_rdropWhile {α : Type} [DecidableEq α] (xs : List α) (a : α) :
    (xs.rdropWhile (· = a)).getLast? ≠ some a := by
  intro last
  obtain ⟨filled, same⟩ := List.mem_getLast?_eq_getLast last
  exact List.rdropWhile_last_not _ _ filled (by simpa using same.symm)

namespace Cadence

theorem fieldCount_append_zeros (digits : List Nat) (zeros : Nat) :
    fieldCount (digits ++ List.replicate zeros 0) = fieldCount digits := by
  induction zeros with
  | zero => simp
  | succ zeros ih => rw [List.replicate_succ', ← List.append_assoc, fieldCount_append, ih]; rfl

theorem firstNonzero_zeros (zeros : Nat) : firstNonzero (List.replicate zeros 0) = (0, zeros) := by
  induction zeros with
  | zero => rfl
  | succ zeros ih => rw [List.replicate_succ, firstNonzero, ih]

theorem firstNonzero_append {front : List Nat} (found : (firstNonzero front).1 ≠ 0) (back : List Nat) :
    firstNonzero (front ++ back) = firstNonzero front := by
  induction front with
  | nil => exact absurd rfl found
  | cons d front ih =>
    rcases d with _ | d
    · rw [List.cons_append, firstNonzero, firstNonzero, ih found]
    · rfl

section reach

variable {target count total : Nat} {digits : List Nat}

theorem reach_append (front back : List Nat) :
    reach target (front ++ back) count total =
      (reach target front count total).or (reach target back (count + front.length) (total + fieldCount front)) := by
  induction front generalizing count total with
  | nil => rfl
  | cons d front ih =>
    rw [List.cons_append, reach, reach]
    by_cases here : target ≤ total + d
    · rw [if_pos here, if_pos here]
      rfl
    · rw [if_neg here, if_neg here, ih, List.length_cons]
      show _ = (reach target front (count + 1) (total + d)).or
        (reach target back (count + (front.length + 1)) (total + (d + fieldCount front)))
      rw [Nat.add_assoc, Nat.add_assoc, Nat.add_comm 1]

theorem reach_zeros (below : total < target) (zeros : Nat) :
    reach target (List.replicate zeros 0) count total = none := by
  induction zeros generalizing count with
  | zero => rfl
  | succ zeros ih => rw [List.replicate_succ, reach, Nat.add_zero, if_neg (by omega), ih]

theorem reach_add (digits : List Nat) (more : Nat) :
    reach target digits (count + more) total = (reach target digits count total).map fun x => (x.1 + more, x.2) := by
  induction digits generalizing count total with
  | nil => rfl
  | cons d digits ih =>
    rw [reach, reach]
    split
    · rw [Option.map_some, Nat.add_right_comm]
    · rw [Nat.add_right_comm, ih]

theorem reach_bounds {x : Nat × Nat} (found : reach target digits count total = some x) :
    count < x.1 ∧ x.1 ≤ count + digits.length := by
  induction digits generalizing count total with
  | nil => cases found
  | cons d digits ih =>
    rw [reach] at found
    rw [List.length_cons]
    split at found
    · cases found
      exact ⟨by simp only; omega, by simp only; omega⟩
    · have further := ih found
      omega

theorem lt_of_reach_eq_none (below : total < target) (missed : reach target digits count total = none) :
    total + fieldCount digits < target := by
  induction digits generalizing count total with
  | nil => exact below
  | cons d digits ih =>
    rw [reach] at missed
    split at missed
    · cases missed
    next short =>
      have further := ih (by omega) missed
      show total + (d + fieldCount digits) < target
      omega

end reach

/-- The position `place` in digits that zeros follow is the position `other` in the digits alone. -/
structure SamePlace (digits : List Nat) (place other : Nat) : Prop where
  near : place ≤ digits.length
  wrapped : other = place % digits.length

theorem SamePlace.of_mod {digits : List Nat} {n : Nat} (near : n ≤ digits.length) (zeros : Nat) :
    SamePlace digits (n % (digits.length + zeros)) (n % digits.length) := by
  rcases Nat.eq_zero_or_pos zeros with rfl | some
  · exact ⟨(Nat.mod_le _ _).trans near, (Nat.mod_mod _ _).symm⟩
  · have short : n % (digits.length + zeros) = n := Nat.mod_eq_of_lt (by omega)
    rw [short]
    exact ⟨near, rfl⟩

theorem phaseAt_append_zeros (digits : List Nat) (zeros start : Nat) :
    SamePlace digits (phaseAt (digits ++ List.replicate zeros 0) start).1 (phaseAt digits start).1 ∧
      (phaseAt (digits ++ List.replicate zeros 0) start).2 = (phaseAt digits start).2 := by
  have origin : SamePlace digits 0 0 := ⟨Nat.zero_le _, (Nat.zero_mod _).symm⟩
  by_cases early : start = 0
  · rw [early]
    exact ⟨origin, rfl⟩
  have positive : 0 < 2 * start := by omega
  rw [phaseAt, phaseAt, if_neg early, if_neg early, List.length_append, List.length_replicate]
  simp only [reach_append, List.length_append, List.length_replicate, fieldCount_append_zeros, Nat.zero_add]
  cases first : reach (2 * start) digits 0 0 with
  | some x =>
    have bounds := reach_bounds first
    exact ⟨.of_mod (by omega) zeros, rfl⟩
  | none =>
    have below := lt_of_reach_eq_none positive first
    rw [Nat.zero_add] at below
    rw [reach_zeros below, reach_add]
    cases second : reach (2 * start) digits digits.length (fieldCount digits) with
    | some x =>
      obtain ⟨n, past⟩ := Nat.exists_eq_add_of_lt (reach_bounds second).1
      have bound := (reach_bounds second).2
      have whole : (x.1 + zeros) % (digits.length + zeros) = (n + 1) % (digits.length + zeros) := by
        rw [show x.1 + zeros = digits.length + zeros + (n + 1) by omega, Nat.add_mod_left]
      have alone : x.1 % digits.length = (n + 1) % digits.length := by
        rw [past, Nat.add_assoc, Nat.add_mod_left]
      simp only [Option.map_some, Option.some_or, Option.none_or, whole, alone]
      exact ⟨.of_mod (by omega) zeros, trivial⟩
    | none =>
      have still := lt_of_reach_eq_none below second
      rw [reach_zeros still]
      exact ⟨origin, rfl⟩

theorem readDigits_of_digits {chars : List Char} (all : ∀ c ∈ chars, Text.isDigit c = true) (index : Nat) :
    readDigits index chars = .ok (chars.map digitValue) := by
  induction chars generalizing index with
  | nil => rfl
  | cons c chars ih =>
    rw [List.forall_mem_cons] at all
    rw [readDigits, if_pos all.1, ih all.2]
    rfl

theorem readDigits_eq_ok {index : Nat} {chars : List Char} {digits : List Nat}
    (read : readDigits index chars = .ok digits) :
    (∀ c ∈ chars, Text.isDigit c = true) ∧ digits = chars.map digitValue := by
  induction chars generalizing index digits with
  | nil =>
    cases read
    simp
  | cons c chars ih =>
    rw [readDigits] at read
    split at read
    next digit =>
      cases rest : readDigits (index + 1) chars with
      | error e => rw [rest] at read; cases read
      | ok others =>
        rw [rest] at read
        cases read
        obtain ⟨all, rfl⟩ := ih rest
        exact ⟨List.forall_mem_cons.mpr ⟨digit, all⟩, rfl⟩
    · cases read

theorem digitValue_le {c : Char} (digit : Text.isDigit c = true) : digitValue c ≤ 9 := by
  have bounds := (Text.isDigit_iff c).mp digit
  show c.toNat - 48 ≤ 9
  omega

theorem digitValue_eq_zero {c : Char} (digit : Text.isDigit c = true) : digitValue c = 0 ↔ c = '0' := by
  have bounds := (Text.isDigit_iff c).mp digit
  constructor
  · intro zero
    have least : c.toNat - 48 = 0 := zero
    exact Char.toNat_inj.mp (show c.toNat = 48 by omega)
  · rintro rfl
    rfl

theorem Parsed.le_nine {pattern : String} {start : Nat} {c : Cadence} (h : Parsed pattern start c) :
    ∀ d ∈ c.digits, d ≤ 9 := by
  obtain ⟨all, same⟩ := readDigits_eq_ok h.read
  rw [same]
  intro d member
  obtain ⟨b, found, rfl⟩ := List.mem_map.mp member
  exact digitValue_le (all b found)

theorem Counted.trimmed {digits : List Nat} {zeros start : Nat}
    (h : Counted (digits ++ List.replicate zeros 0) start) : Counted digits start := by
  obtain ⟨cycle, walk⟩ := h
  rw [fieldCount_append_zeros] at cycle
  rw [(phaseAt_append_zeros digits zeros start).2] at walk
  exact ⟨cycle, walk⟩

theorem parse_of_readDigits {pattern : String} {start : Nat} {digits : List Nat}
    (read : readDigits 0 pattern.toList = .ok digits) (inside : start < fieldCount digits)
    (counted : Counted digits start) : parse pattern start = .ok (ofDigits digits start) := by
  have filled : pattern.toList ≠ [] := by
    intro none
    rw [none] at read
    cases read
    exact absurd inside (Nat.not_lt_zero start)
  rw [parse, if_neg filled, read]
  simp only [counted.seek_eq]
  rw [if_neg (Nat.not_le_of_lt counted.cycle), if_neg (Nat.not_le_of_lt inside)]
  rfl

end Cadence

namespace Options

def trimmed (options : Options) : Options :=
  { options with pattern := String.ofList (options.pattern.toList.rdropWhile (· = '0')) }

theorem cadence_trimmed {options : Options} {c : Cadence} (accepted : options.cadence = .ok c) :
    ∃ digits zeros, options.trimmed.cadence = .ok (.ofDigits digits options.start) ∧
      c.digits = digits ++ List.replicate zeros 0 ∧ digits.getLast? ≠ some 0 := by
  obtain ⟨read, inside, _, _, counted⟩ := cadence_eq_ok accepted
  obtain ⟨all, same⟩ := Cadence.readDigits_eq_ok read
  obtain ⟨zeros, split⟩ := eq_rdropWhile_append options.pattern.toList '0'
  have last := getLast?_rdropWhile options.pattern.toList '0'
  have trimmed : options.trimmed.pattern.toList = options.pattern.toList.rdropWhile (· = '0') := String.toList_ofList
  generalize options.pattern.toList.rdropWhile (· = '0') = front at split last trimmed
  have digit : ∀ c ∈ front, Text.isDigit c = true :=
    fun c member => all c (split ▸ List.mem_append_left _ member)
  have whole : c.digits = front.map Cadence.digitValue ++ List.replicate zeros 0 := by
    rw [same, split, List.map_append, List.map_replicate]
    rfl
  refine ⟨front.map Cadence.digitValue, zeros, ?_, whole, ?_⟩
  · have bound : ¬ greatestStart < options.start := by
      intro late
      rw [cadence, if_pos late] at accepted
      cases accepted
    rw [cadence, show options.trimmed.start = options.start from rfl, if_neg bound]
    apply Cadence.parse_of_readDigits
    · rw [trimmed]
      exact Cadence.readDigits_of_digits digit 0
    · rw [whole, Cadence.fieldCount_append_zeros] at inside
      exact inside
    · exact (whole ▸ counted).trimmed
  · rw [List.getLast?_map]
    intro zero
    obtain ⟨c, found, value⟩ := Option.map_eq_some_iff.mp zero
    rw [Cadence.digitValue_eq_zero (digit c (List.mem_of_getLast? found))] at value
    exact last (value ▸ found)

end Options

end InverseTelecine
