namespace InverseTelecine.Text

def splitFirst? (p : Char → Bool) : List Char → Option (List Char × List Char)
  | [] => none
  | c :: s => if p c then some ([], s) else (splitFirst? p s).map fun (a, b) => (c :: a, b)

def splitAll (separator : Char) : List Char → List (List Char)
  | [] => [[]]
  | c :: s =>
    match splitAll separator s with
    | [] => [[c]]
    | piece :: rest => if c = separator then [] :: piece :: rest else (c :: piece) :: rest

theorem splitFirst?_eq_none_iff {p : Char → Bool} {s : List Char} :
    splitFirst? p s = none ↔ ∀ c ∈ s, p c = false := by
  induction s with
  | nil => simp [splitFirst?]
  | cons c s ih =>
    rw [splitFirst?]
    by_cases h : p c <;> simp [h, ih]

theorem splitFirst?_eq_some {p : Char → Bool} {s a b : List Char} (h : splitFirst? p s = some (a, b)) :
    ∃ c, p c = true ∧ s = a ++ c :: b ∧ ∀ x ∈ a, p x = false := by
  induction s generalizing a with
  | nil => simp [splitFirst?] at h
  | cons c s ih =>
    rw [splitFirst?] at h
    by_cases hc : p c
    · simp only [hc, ↓reduceIte, Option.some.injEq, Prod.mk.injEq] at h
      exact ⟨c, hc, by simp [← h.1, ← h.2], by simp [← h.1]⟩
    · simp only [hc, Bool.false_eq_true, ↓reduceIte, Option.map_eq_some_iff] at h
      obtain ⟨⟨a', b'⟩, found, eq⟩ := h
      simp only [Prod.mk.injEq] at eq
      obtain ⟨d, hd, split, before⟩ := ih (a := a') (by rw [found, eq.2])
      refine ⟨d, hd, by simp [← eq.1, split], ?_⟩
      simp only [← eq.1, List.mem_cons, forall_eq_or_imp]
      exact ⟨by simpa using hc, before⟩

theorem splitAll_ne_nil (separator : Char) (s : List Char) : splitAll separator s ≠ [] := by
  cases s with
  | nil => simp [splitAll]
  | cons c s =>
    rw [splitAll]
    split
    · simp
    · split <;> simp

theorem intercalate_splitAll (separator : Char) (s : List Char) :
    List.intercalate [separator] (splitAll separator s) = s := by
  induction s with
  | nil => rfl
  | cons c s ih =>
    rw [splitAll]
    split
    next h => exact absurd h (splitAll_ne_nil separator s)
    next piece rest h =>
      rw [h] at ih
      split
      next hc => rw [hc, ← ih]; rfl
      next => cases rest <;> simp_all [List.intercalate]

end InverseTelecine.Text
