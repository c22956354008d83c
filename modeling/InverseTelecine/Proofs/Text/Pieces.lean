import InverseTelecine.Text.Blank
import InverseTelecine.Text.Split
import Mathlib.Data.List.DropRight
import Mathlib.Data.List.Forall2

namespace InverseTelecine.Text

/-- What holds of all characters of a text is decided on the text, not on all characters that there are. -/
instance (priority := high) decidableForallMem {p : Char → Prop} [DecidablePred p] (s : List Char) :
    Decidable (∀ c ∈ s, p c) :=
  List.decidableBAll p s

def Blank (s : List Char) : Prop := ∀ c ∈ s, isBlank c = true

instance (s : List Char) : Decidable (Blank s) := inferInstanceAs (Decidable (∀ c ∈ s, isBlank c = true))

/-- It is `core` with white space around. -/
def Padded (s core : List Char) : Prop := ∃ front back, Blank front ∧ Blank back ∧ s = front ++ core ++ back

variable {s core : List Char}

theorem Blank.nil : Blank [] := List.forall_mem_nil _

theorem Blank.append {front back : List Char} (hf : Blank front) (hb : Blank back) : Blank (front ++ back) :=
  List.forall_mem_append.mpr ⟨hf, hb⟩

theorem Blank.not_mem {c : Char} (h : Blank s) (visible : isBlank c = false) : c ∉ s := by
  intro member
  rw [h c member] at visible
  cases visible

theorem Padded.refl (s : List Char) : Padded s s := ⟨[], [], .nil, .nil, (List.append_nil _).symm⟩

theorem Padded.trans {inner : List Char} (h : Padded s core) (further : Padded core inner) : Padded s inner := by
  obtain ⟨front, back, blankFront, blankBack, rfl⟩ := h
  obtain ⟨front', back', blankFront', blankBack', rfl⟩ := further
  exact ⟨front ++ front', back' ++ back, blankFront.append blankFront', blankBack'.append blankBack,
    by simp only [List.append_assoc]⟩

theorem trim_eq_rdropWhile (s : List Char) : trim s = (s.dropWhile isBlank).rdropWhile isBlank := rfl

theorem padded_trim (s : List Char) : Padded s (trim s) := by
  refine ⟨s.takeWhile isBlank, (s.dropWhile isBlank).rtakeWhile isBlank, ?_, ?_, ?_⟩
  · exact fun c member => List.mem_takeWhile_imp member
  · exact fun c member => List.mem_rtakeWhile_imp member
  · rw [trim_eq_rdropWhile, List.append_assoc, List.rdropWhile_append_rtakeWhile, List.takeWhile_append_dropWhile]

theorem rdropWhile_append_blank {back : List Char} (blank : Blank back) (s : List Char) :
    (s ++ back).rdropWhile isBlank = s.rdropWhile isBlank := by
  rw [List.rdropWhile, List.reverse_append, List.dropWhile_append_of_pos]
  · rfl
  · exact fun c member => blank c (List.mem_reverse.mp member)

theorem Padded.trim_eq (h : Padded s core) : trim s = trim core := by
  obtain ⟨front, back, blankFront, blankBack, rfl⟩ := h
  rw [trim_eq_rdropWhile, trim_eq_rdropWhile, List.append_assoc, List.dropWhile_append_of_pos blankFront,
    List.dropWhile_append]
  split
  next empty =>
    rw [List.isEmpty_iff] at empty
    rw [empty, List.dropWhile_eq_nil_iff.mpr blankBack]
  · exact rdropWhile_append_blank blankBack _

theorem trim_eq_nil_iff : trim s = [] ↔ Blank s := by
  constructor
  · intro empty
    obtain ⟨front, back, blankFront, blankBack, whole⟩ := padded_trim s
    rw [whole, empty, List.append_nil]
    exact blankFront.append blankBack
  · intro blank
    rw [trim_eq_rdropWhile, List.dropWhile_eq_nil_iff.mpr blank, List.rdropWhile_nil]

theorem trim_ne_nil {c : Char} (member : c ∈ s) (visible : isBlank c = false) : trim s ≠ [] :=
  fun blank => (trim_eq_nil_iff.mp blank).not_mem visible member

theorem Padded.behind {front : List Char} (h : Padded (front ++ s) core) (shows : ∀ c ∈ front, isBlank c = false)
    (filled : front ≠ []) : ∃ rest, core = front ++ rest ∧ Padded s rest := by
  obtain ⟨before, after, blankBefore, blankAfter, whole⟩ := h
  obtain rfl : before = [] := by
    cases before with
    | nil => rfl
    | cons c before =>
      obtain ⟨d, others, rfl⟩ := List.exists_cons_of_ne_nil filled
      obtain rfl : d = c := (List.cons.inj whole).1
      exact absurd List.mem_cons_self (blankBefore.not_mem (shows d List.mem_cons_self))
  rw [List.nil_append] at whole
  rcases List.append_eq_append_iff.mp whole with ⟨rest, rfl, rfl⟩ | ⟨rest, rfl, rfl⟩
  · exact ⟨rest, rfl, [], after, .nil, blankAfter, rfl⟩
  · obtain rfl : rest = [] := by
      apply List.eq_nil_iff_forall_not_mem.mpr
      intro c member
      exact blankAfter.not_mem (shows c (List.mem_append_right _ member)) (List.mem_append_left _ member)
    refine ⟨[], by simp only [List.append_nil], [], s, .nil, ?_, rfl⟩
    exact fun c member => blankAfter c (List.mem_append_right _ member)

theorem Padded.mem (h : Padded s core) {c : Char} (visible : isBlank c = false) (member : c ∈ s) : c ∈ core := by
  obtain ⟨front, back, blankFront, blankBack, rfl⟩ := h
  rw [List.append_assoc, List.mem_append, List.mem_append] at member
  rcases member with before | inside | after
  · exact absurd before (blankFront.not_mem visible)
  · exact inside
  · exact absurd after (blankBack.not_mem visible)

theorem Padded.eq_of_shows (h : Padded s core) (shows : ∀ c ∈ s, isBlank c = false) : core = s := by
  obtain ⟨front, back, blankFront, blankBack, rfl⟩ := h
  have none : ∀ {t : List Char}, Blank t → t ⊆ front ++ core ++ back → t = [] := by
    intro t blank part
    apply List.eq_nil_iff_forall_not_mem.mpr
    intro c member
    exact blank.not_mem (shows c (part member)) member
  obtain rfl := none blankFront fun c member => List.mem_append_left _ (List.mem_append_left _ member)
  obtain rfl := none blankBack fun c member => List.mem_append_right _ member
  rw [List.nil_append, List.append_nil]

section pieces

variable {separator : Char}

theorem splitFirst?_append {p : Char → Bool} {front : List Char} (before : ∀ c ∈ front, p c = false) {c : Char}
    (found : p c = true) (rest : List Char) : splitFirst? p (front ++ c :: rest) = some (front, rest) := by
  induction front with
  | nil => rw [List.nil_append, splitFirst?, if_pos found]
  | cons d front ih =>
    rw [List.forall_mem_cons] at before
    rw [List.cons_append, splitFirst?, before.1, ih before.2]
    rfl

theorem splitFirst?_surround {p : Char → Bool} {front back : List Char} (before : ∀ c ∈ front, p c = false)
    (after : ∀ c ∈ back, p c = false) (s : List Char) :
    splitFirst? p (front ++ s ++ back) = (splitFirst? p s).map fun (a, b) => (front ++ a, b ++ back) := by
  cases found : splitFirst? p s with
  | none =>
    rw [splitFirst?_eq_none_iff] at found
    rw [Option.map_none, splitFirst?_eq_none_iff]
    exact List.forall_mem_append.mpr ⟨List.forall_mem_append.mpr ⟨before, found⟩, after⟩
  | some parts =>
    obtain ⟨a, b⟩ := parts
    obtain ⟨c, separates, rfl, free⟩ := splitFirst?_eq_some found
    rw [Option.map_some, ← splitFirst?_append (List.forall_mem_append.mpr ⟨before, free⟩) separates (b ++ back)]
    simp only [List.append_assoc, List.cons_append]

theorem splitAll_append {front : List Char} (free : separator ∉ front) {piece : List Char} {pieces : List (List Char)}
    (split : splitAll separator s = piece :: pieces) :
    splitAll separator (front ++ s) = (front ++ piece) :: pieces := by
  induction front with
  | nil => exact split
  | cons c front ih =>
    rw [List.mem_cons, not_or] at free
    rw [List.cons_append, splitAll, ih free.2]
    exact if_neg (Ne.symm free.1)

theorem splitAll_separator (separator : Char) (s : List Char) :
    splitAll separator (separator :: s) = [] :: splitAll separator s := by
  rw [splitAll]
  cases split : splitAll separator s with
  | nil => exact absurd split (splitAll_ne_nil separator s)
  | cons piece pieces => exact if_pos rfl

theorem splitAll_of_free (free : separator ∉ s) : splitAll separator s = [s] := by
  have whole := splitAll_append free (show splitAll separator [] = [] :: [] from rfl)
  rwa [List.append_nil] at whole

theorem splitAll_intercalate {pieces : List (List Char)} (free : ∀ piece ∈ pieces, separator ∉ piece)
    (filled : pieces ≠ []) : splitAll separator (List.intercalate [separator] pieces) = pieces := by
  induction pieces with
  | nil => exact absurd rfl filled
  | cons piece pieces ih =>
    rw [List.forall_mem_cons] at free
    cases pieces with
    | nil =>
      rw [List.intercalate_singleton]
      exact splitAll_of_free free.1
    | cons next pieces =>
      have others := splitAll_separator separator (List.intercalate [separator] (next :: pieces))
      rw [ih free.2 (List.cons_ne_nil _ _)] at others
      have split := splitAll_append free.1 others
      rwa [List.append_nil, ← List.singleton_append, ← List.append_assoc, ← List.intercalate_cons_cons] at split

theorem exists_splitAll_append {back : List Char} (free : separator ∉ back) (s : List Char) :
    ∃ pieces last, splitAll separator s = pieces ++ [last] ∧
      splitAll separator (s ++ back) = pieces ++ [last ++ back] := by
  induction s with
  | nil => exact ⟨[], [], rfl, splitAll_of_free free⟩
  | cons c s ih =>
    obtain ⟨pieces, last, alone, more⟩ := ih
    by_cases same : c = separator
    · subst same
      exact ⟨[] :: pieces, last, by rw [splitAll_separator, alone]; rfl,
        by rw [List.cons_append, splitAll_separator, more]; rfl⟩
    · have apart : separator ∉ [c] := fun member => same (List.mem_singleton.mp member).symm
      cases pieces with
      | nil => exact ⟨[], c :: last, splitAll_append apart alone, splitAll_append apart more⟩
      | cons piece pieces =>
        exact ⟨(c :: piece) :: pieces, last, splitAll_append apart alone, splitAll_append apart more⟩

theorem splitAll_padded (visible : isBlank separator = false) (h : Padded s core) :
    List.Forall₂ Padded (splitAll separator s) (splitAll separator core) := by
  obtain ⟨front, back, blankFront, blankBack, rfl⟩ := h
  obtain ⟨pieces, last, alone, more⟩ := exists_splitAll_append (blankBack.not_mem visible) core
  have closing : Padded (last ++ back) last := ⟨[], back, .nil, blankBack, rfl⟩
  rw [alone, List.append_assoc]
  cases pieces with
  | nil =>
    rw [splitAll_append (blankFront.not_mem visible) more]
    exact .cons ⟨front, back, blankFront, blankBack, (List.append_assoc _ _ _).symm⟩ .nil
  | cons piece pieces =>
    rw [splitAll_append (blankFront.not_mem visible) more]
    refine .cons ⟨front, [], blankFront, .nil, (List.append_nil _).symm⟩ ?_
    exact List.rel_append (List.forall₂_same.mpr fun s _ => .refl s) (.cons closing .nil)

end pieces

end InverseTelecine.Text
