import InverseTelecine.Proofs.Restorer.Outputs

namespace InverseTelecine

theorem slotPicture_shift (first : FieldParity) (inputs : Nat → Visible) (frames start fields : Nat) :
    slotPicture first (fun i => inputs (frames + i)) start fields =
      slotPicture first inputs (2 * frames + start) fields := by
  obtain ⟨i, even | odd⟩ : ∃ i, start = 2 * i ∨ start = 2 * i + 1 := ⟨start / 2, by omega⟩
  · rw [even, ← Nat.mul_add, slotPicture_even, slotPicture_even]
  · rw [odd, ← Nat.add_assoc, ← Nat.mul_add]
    by_cases two : 2 ≤ fields
    · rw [slotPicture_odd _ _ _ two, slotPicture_odd _ _ _ two]
      rfl
    · have short : fields < 2 := by omega
      rw [slotPicture_odd_short _ _ _ short, slotPicture_odd_short _ _ _ short]

namespace Restorer

theorem visibleAt_drop (inputs : List Frame) (frames i : Nat) :
    visibleAt (inputs.drop frames) i = visibleAt inputs (frames + i) := by
  simp only [visibleAt, List.getD_eq_getElem?_getD, List.map_drop, List.getElem?_drop]

section cut

variable {digits : List Nat} {start k : Nat}

theorem slotShown_cut (first : FieldParity) (inputs : List Frame) (inside : start < Cadence.fieldCount digits)
    (least : IsLeast {j | 2 * start ≤ slotStart (cyclic (nonzeroFrom digits 0)) j} k) (j : Nat) :
    slotShown first (inputs.drop start) (Cadence.cutFields digits start) (Cadence.cutSlots digits start + j) =
      slotShown first inputs (cyclic (nonzeroFrom digits 0)) (k + j) := by
  have shifted : visibleAt (inputs.drop start) = fun i => visibleAt inputs (start + i) := by
    funext i
    exact visibleAt_drop inputs start i
  rw [slotShown, slotShown, shifted, slotPicture_shift, Cadence.slotStart_cutFields inside least,
    Cadence.cutFields_add inside least]

theorem slotsBefore_cut (inside : start < Cadence.fieldCount digits) (last : digits.getLast? ≠ some 0)
    (least : IsLeast {j | 2 * start ≤ slotStart (cyclic (nonzeroFrom digits 0)) j} k) {frames : Nat}
    (long : start ≤ frames) :
    slotsBefore (Cadence.cutFields digits start) (2 * (frames - start) - 1) - Cadence.cutSlots digits start =
      slotsBefore (cyclic (nonzeroFrom digits 0)) (2 * frames - 1) - k := by
  have whole : ∀ i, 0 < cyclic (nonzeroFrom digits 0) i := Cadence.cutFields_pos (Nat.zero_lt_of_lt inside) last
  apply slotsBefore_shift (Cadence.cutFields_pos inside last) whole (Cadence.slotStart_cutFields inside least)
  intro n behind
  omega

end cut

variable {σ τ : Type} {ends : Endpoints σ} {wholeEnds : Endpoints τ} {options : Options} {stream : InputStream}
  {c : Cadence} {cut whole : Restorer}

/-- A run that starts in the middle of a pattern hands on, after the picture of a slot that was cut, what
the run over the whole stream hands on from there. -/
theorem cut_run_realigns (accepted : options.cadence = .ok c) (last : c.digits.getLast? ≠ some 0)
    (cutStarted : cut.Started options stream) (wholeStarted : whole.Started { options with start := 0 } stream)
    {inputs : List Frame} (long : options.start ≤ inputs.length)
    (fits : ∀ f ∈ inputs, f.picture.Fits stream.layout) (s : σ) (t : τ)
    (cutQuiet : ∀ d ∈ calls ends cut (inputs.drop options.start) s, d.Undisturbed stream.layout)
    (wholeQuiet : ∀ d ∈ calls wholeEnds whole inputs t, d.Undisturbed stream.layout) :
    let T := slotStart (cyclic (c.digits.filter (· ≠ 0)))
    ∃ k, (∀ j, j < k ↔ T j < 2 * options.start) ∧
      ((calls ends cut (inputs.drop options.start) s).flatMap Call.shown).drop
          (if 2 * options.start < T k then 1 else 0) =
        ((calls wholeEnds whole inputs t).flatMap Call.shown).drop k := by
  intro T
  have inside := (Options.cadence_eq_ok accepted).inside
  obtain ⟨c', accepted'⟩ := wholeStarted.cadence
  have digits : c'.digits = c.digits := by
    have cutRead := (Options.cadence_eq_ok accepted).read
    have wholeRead := (Options.cadence_eq_ok accepted').read
    exact Except.ok.inj (wholeRead.symm.trans cutRead)
  have positive : ∀ i, 0 < cyclic (nonzeroFrom c.digits 0) i :=
    Cadence.cutFields_pos (Nat.zero_lt_of_lt inside) last
  have least := isLeast_slotsBefore positive (2 * options.start)
  have cutFits : ∀ f ∈ inputs.drop options.start, f.picture.Fits stream.layout :=
    fun f member => fits f (List.mem_of_mem_drop member)
  have cutShown := cutStarted.shown accepted last cutFits s cutQuiet
  have wholeShown := wholeStarted.shown accepted' (digits ▸ last) fits t wholeQuiet
  rw [digits] at wholeShown
  simp only [T, ← nonzeroFrom_zero]
  refine ⟨slotsBefore (cyclic (nonzeroFrom c.digits 0)) (2 * options.start),
    fun j => lt_slotsBefore_iff positive j _, ?_⟩
  rw [← Cadence.cutSlots_eq inside least, cutShown, wholeShown, drop_map_range, drop_map_range, List.length_drop,
    slotsBefore_cut inside last least long]
  apply List.map_congr_left
  intro j _
  rw [slotShown_cut options.first inputs inside least]
  rfl

theorem cut_run_realigns_columns :
    ∃ cut whole, (start (Pool.supply .boundless) ⟨.top, "23", 3⟩ .columns Pool.columns).result = .ok cut ∧
      (start (Pool.supply .boundless) ⟨.top, "23", 0⟩ .columns Pool.columns).result = .ok whole ∧
      let T := slotStart (cyclic ([2, 3].filter (· ≠ 0)))
      let inputs := Frame.columns [(0, 0), (1, 1), (1, 2), (2, 3), (3, 3), (4, 4)]
      let cutShown := (calls (Pool.supply .boundless).collecting cut (inputs.drop 3) (Pool.columns, [])).flatMap Call.shown
      let wholeShown := (calls (Pool.supply .boundless).collecting whole inputs (Pool.columns, [])).flatMap Call.shown
      cutShown = [[[#[2], #[3]]], [[#[3], #[3]]], [[#[4], #[4]]]] ∧
        wholeShown = [[[#[0], #[0]]], [[#[1], #[1]]], [[#[2], #[2]]], [[#[3], #[3]]], [[#[4], #[4]]]] ∧
        (∀ j, j < 3 ↔ T j < 6) ∧ 6 < T 3 ∧ cutShown.drop 1 = wholeShown.drop 3 := by
  obtain ⟨cut, cutBuilt, cutShown⟩ :
      ∃ r, (start (Pool.supply .boundless) ⟨.top, "23", 3⟩ .columns Pool.columns).result = .ok r ∧
        (calls (Pool.supply .boundless).collecting r ((Frame.columns [(0, 0), (1, 1), (1, 2), (2, 3), (3, 3), (4, 4)]).drop 3)
          (Pool.columns, [])).flatMap Call.shown = [[[#[2], #[3]]], [[#[3], #[3]]], [[#[4], #[4]]]] :=
    ⟨_, rfl, by decide +kernel⟩
  obtain ⟨whole, wholeBuilt, wholeShown⟩ :
      ∃ r, (start (Pool.supply .boundless) ⟨.top, "23", 0⟩ .columns Pool.columns).result = .ok r ∧
        (calls (Pool.supply .boundless).collecting r (Frame.columns [(0, 0), (1, 1), (1, 2), (2, 3), (3, 3), (4, 4)])
          (Pool.columns, [])).flatMap Call.shown =
          [[[#[0], #[0]]], [[#[1], #[1]]], [[#[2], #[2]]], [[#[3], #[3]]], [[#[4], #[4]]]] :=
    ⟨_, rfl, by decide +kernel⟩
  have accepted : Options.cadence ⟨.top, "23", 3⟩ = .ok ⟨[2, 3], 1, 1, 1, 1, ⟨5, 4⟩, 3⟩ := rfl
  obtain ⟨k, before, realigned⟩ := cut_run_realigns accepted (by decide) (columns_started cutBuilt)
    (columns_started wholeBuilt) (by decide)
    (Frame.columns_fit [(0, 0), (1, 1), (1, 2), (2, 3), (3, 3), (4, 4)]) _ _
    (columns_undisturbed cut _) (columns_undisturbed whole _)
  obtain rfl : k = 3 := by
    have inside : 2 < k := (before 2).mpr (by decide)
    have outside : ¬ 3 < k := fun further => absurd ((before 3).mp further) (by decide)
    omega
  exact ⟨cut, whole, cutBuilt, wholeBuilt, cutShown, wholeShown, before, by decide, realigned⟩

end Restorer

end InverseTelecine
