import InverseTelecine.Proofs.Text.Pieces
import InverseTelecine.Text.Decimal
import Mathlib.Data.Int.Notation
import Mathlib.Data.Nat.Notation

namespace InverseTelecine.Text

open Signed64

def Digits (s : List Char) : Prop := s ≠ [] ∧ ∀ c ∈ s, isDigit c = true

/-- A sign or none, and then decimal digits. -/
inductive Numeral : List Char → ℤ → Prop where
  | unsigned {s : List Char} (digits : Digits s) : Numeral s (Nat.ofDigitChars 10 s 0)
  | plus {s : List Char} (digits : Digits s) : Numeral ('+' :: s) (Nat.ofDigitChars 10 s 0)
  | minus {s : List Char} (digits : Digits s) : Numeral ('-' :: s) (-Nat.ofDigitChars 10 s 0)

structure Spells (s : List Char) (x : ℤ) : Prop where
  numeral : Numeral s x
  fits : Fits x

def Denotes (s : List Char) (x : ℤ) : Prop := ∃ core, Padded s core ∧ Spells core x

variable {s core : List Char} {x : ℤ}

theorem isDigit_iff (c : Char) : isDigit c = true ↔ 48 ≤ c.toNat ∧ c.toNat ≤ 57 := by
  simp only [isDigit, Bool.and_eq_true, decide_eq_true_eq, Char.le_def, UInt32.le_iff_toNat_le]
  rfl

theorem isBlank_of_digit {c : Char} (digit : isDigit c = true) : isBlank c = false := by
  have bounds := (isDigit_iff c).mp digit
  simp only [isBlank, Bool.or_eq_false_iff, Bool.and_eq_false_iff, decide_eq_false_iff_not, beq_eq_false_iff_ne]
  omega

theorem natural?_eq_some_iff {n : ℕ} : natural? s = some n ↔ Digits s ∧ Nat.ofDigitChars 10 s 0 = n := by
  have digits : ¬(s = [] ∨ ¬ s.all isDigit) ↔ Digits s := by simp [Digits]
  unfold natural?
  split
  next stray =>
    constructor
    · intro read
      cases read
    · intro read
      exact absurd stray (digits.mpr read.1)
  next read => simp only [digits.mp read, true_and, Option.some.injEq]

theorem Numeral.chars (h : Numeral s x) : ∀ c ∈ s, isDigit c = true ∨ c = '-' ∨ c = '+' := by
  cases h with
  | unsigned digits => exact fun c member => .inl (digits.2 c member)
  | plus digits => exact List.forall_mem_cons.mpr ⟨.inr (.inr rfl), fun c member => .inl (digits.2 c member)⟩
  | minus digits => exact List.forall_mem_cons.mpr ⟨.inr (.inl rfl), fun c member => .inl (digits.2 c member)⟩

theorem Numeral.shows (h : Numeral s x) : ∀ c ∈ s, isBlank c = false := by
  intro c member
  rcases h.chars c member with digit | rfl | rfl
  · exact isBlank_of_digit digit
  · rfl
  · rfl

theorem integer?_eq_some_iff : integer? s = some x ↔ Spells s x := by
  constructor
  · intro read
    obtain ⟨value, fits⟩ := Option.filter_eq_some_iff.mp read
    refine ⟨?_, of_decide_eq_true fits⟩
    split at value
    next rest =>
      obtain ⟨n, found, rfl⟩ := Option.map_eq_some_iff.mp value
      obtain ⟨digits, rfl⟩ := natural?_eq_some_iff.mp found
      exact .minus digits
    next rest =>
      obtain ⟨n, found, rfl⟩ := Option.map_eq_some_iff.mp value
      obtain ⟨digits, rfl⟩ := natural?_eq_some_iff.mp found
      exact .plus digits
    next =>
      obtain ⟨n, found, rfl⟩ := Option.map_eq_some_iff.mp value
      obtain ⟨digits, rfl⟩ := natural?_eq_some_iff.mp found
      exact .unsigned digits
  · rintro ⟨numeral, fits⟩
    apply Option.filter_eq_some_iff.mpr
    refine ⟨?_, decide_eq_true fits⟩
    cases numeral with
    | plus digits => exact Option.map_eq_some_iff.mpr ⟨_, natural?_eq_some_iff.mpr ⟨digits, rfl⟩, rfl⟩
    | minus digits => exact Option.map_eq_some_iff.mpr ⟨_, natural?_eq_some_iff.mpr ⟨digits, rfl⟩, rfl⟩
    | unsigned digits =>
      -- A sign is no digit.
      split
      · exact absurd (digits.2 '-' List.mem_cons_self) (by decide)
      · exact absurd (digits.2 '+' List.mem_cons_self) (by decide)
      · exact Option.map_eq_some_iff.mpr ⟨_, natural?_eq_some_iff.mpr ⟨digits, rfl⟩, rfl⟩

theorem integer?_chars (read : integer? s = some x) : ∀ c ∈ s, isDigit c = true ∨ c = '-' ∨ c = '+' :=
  (integer?_eq_some_iff.mp read).numeral.chars

theorem decimal_spells (fits : Fits x) : Spells (decimal x) x := integer?_eq_some_iff.mp (integer?_decimal fits)

theorem Denotes.fits (h : Denotes s x) : Fits x := by
  obtain ⟨_, _, spells⟩ := h
  exact spells.fits

theorem Denotes.of_padded (h : Denotes core x) (padded : Padded s core) : Denotes s x := by
  obtain ⟨numeral, inner, spells⟩ := h
  exact ⟨numeral, padded.trans inner, spells⟩

theorem Denotes.chars (h : Denotes s x) : ∀ c ∈ s, isBlank c = true ∨ isDigit c = true ∨ c = '-' ∨ c = '+' := by
  obtain ⟨core, padded, spells⟩ := h
  intro c member
  cases shows : isBlank c with
  | true => exact .inl rfl
  | false => exact .inr (spells.numeral.chars c (padded.mem shows member))

theorem integer?_trim_eq_some_iff : integer? (trim s) = some x ↔ Denotes s x := by
  rw [integer?_eq_some_iff]
  constructor
  · exact fun spells => ⟨trim s, padded_trim s, spells⟩
  · rintro ⟨core, padded, spells⟩
    rwa [padded.trim_eq, (padded_trim core).eq_of_shows spells.numeral.shows]

end InverseTelecine.Text
