import InverseTelecine.Proofs.Restorer.Following

namespace InverseTelecine

theorem Cadence.rewind_takeSlot (c : Cadence) : c.takeSlot.2.rewind = c.rewind := by
  have emptied : (⟨c.digits, c.position, 0, c.startPosition, c.startCarry, c.ratio, c.start⟩ : Cadence).rewind =
      c.rewind := rfl
  rw [takeSlot, takeCarry]
  cases c.carry with
  | zero => exact emptied
  | succ carry => exact emptied

theorem Cadence.eq_of_rewind {a b : Cadence} (same : a.rewind = b.rewind) (position : a.position = b.position)
    (carry : a.carry = b.carry) : a = b := by
  cases a
  cases b
  simp only [rewind, Cadence.mk.injEq] at same position carry ⊢
  exact ⟨same.1, position, carry, same.2.2.2⟩

def RowRouter.counted (m : RowRouter) (t : Tally) : Tally :=
  if 2 ≤ m.skip then { t with skipped := t.skipped + 1 }
  else if m.skip = 1 then { t with kept := t.kept + 1 }
  else if (({ m with carry := 0 } : RowRouter).scan m.carry).1 = 0 then { t with dropped := t.dropped + 1 }
  else t

theorem RowRouter.counted_emitted (m : RowRouter) (t : Tally) : (m.counted t).emitted = t.emitted := by
  unfold counted
  repeat' split
  all_goals rfl

namespace Restorer

/-- What belongs to the stream and not to a step of it; the cadence is the one that it begins with. -/
structure Setting where
  options : Options
  stream : InputStream
  retiming : Retiming
  clock : Clock
  cadence : Cadence

def setting (r : Restorer) : Setting := ⟨r.options, r.stream, r.retiming, r.clock, r.cadence.rewind⟩

def after {α : Type} (x : Step α) (r : Restorer) : Restorer :=
  match x r with
  | .ok _ r' => r'
  | .error _ r' => r'

/-- However it ends, `view` is as before. -/
def Keeps {α β : Type} (view : Restorer → β) (x : Step α) : Prop := ∀ r, view (after x r) = view r

theorem after_of_ok {α : Type} {x : Step α} {a : α} {r r' : Restorer} (h : x r = .ok a r') : after x r = r' := by
  rw [after, h]

section keeps

variable {α β γ : Type} {view : Restorer → β}

theorem Keeps.bind {x : Step α} {f : α → Step γ} (first : Keeps view x) (rest : ∀ a, Keeps view (f a)) :
    Keeps view (x >>= f) := by
  intro r
  have here := first r
  show view (match EStateM.bind x f r with | .ok _ r' => r' | .error _ r' => r') = _
  rw [EStateM.bind]
  rw [after] at here
  cases done : x r with
  | error stop r' =>
    rw [done] at here
    exact here
  | ok a r' =>
    rw [done] at here
    exact (rest a r').trans here

theorem keeps_pure (view : Restorer → β) (a : α) : Keeps view (pure a) := fun _ => rfl

theorem keeps_get (view : Restorer → β) : Keeps view (get : Step Restorer) := fun _ => rfl

theorem keeps_ite {p : Prop} [Decidable p] {x y : Step α} (yes : Keeps view x) (no : Keeps view y) :
    Keeps view (if p then x else y) := by
  split
  · exact yes
  · exact no

end keeps

def account (r : Restorer) : Setting × Tally := (r.setting, r.tally)

theorem fillSlot_keeps (index : Nat) (fill : Restorer → Picture → Picture.Write FilterError) :
    Keeps account (fillSlot index fill) := by
  intro r
  rw [after, fillSlot]
  cases r.slots[index]? with
  | none => rfl
  | some slot =>
    simp only
    cases fill r slot with
    | error f => rfl
    | ok done => rcases done with ⟨_ | _, picture⟩ <;> rfl

theorem keepInput_keeps (input : Picture) : Keeps account (keepInput input) := by
  intro r
  rw [after, keepInput]
  cases r.donor.keep input with
  | error f => rfl
  | ok done => rcases done with ⟨_ | _, donor⟩ <;> rfl

theorem freeDonor_keeps : Keeps account freeDonor := fun _ => rfl

theorem takeSlot_keeps : Keeps account takeSlot := by
  intro r
  show (Setting.mk r.options r.stream r.retiming r.clock r.cadence.takeSlot.2.rewind, r.tally) = _
  rw [Cadence.rewind_takeSlot]
  rfl

theorem nextSlot_keeps : Keeps account nextSlot := fun _ => rfl

theorem isFull_keeps : Keeps account isFull := fun _ => rfl

theorem showDonor_keeps (len : Nat) : Keeps account (showDonor len) := by
  apply isFull_keeps.bind
  intro full
  apply keeps_ite
  · exact (fillSlot_keeps _ _).bind fun _ => freeDonor_keeps.bind fun _ => nextSlot_keeps.bind fun _ => keeps_pure _ _
  · exact keeps_pure _ _

theorem showInput_keeps (input : Picture) (filled len : Nat) : Keeps account (showInput input filled len) := by
  apply isFull_keeps.bind
  intro full
  apply keeps_ite
  · refine (fillSlot_keeps _ _).bind fun _ => freeDonor_keeps.bind fun _ => ?_
    apply keeps_ite
    · exact (keepInput_keeps input).bind fun _ => keeps_pure _ _
    · exact keeps_pure _ _
  · apply keeps_ite
    · exact (fillSlot_keeps _ _).bind fun _ => keeps_pure _ _
    · apply keeps_ite
      · exact (fillSlot_keeps _ _).bind fun _ => (keepInput_keeps input).bind fun _ => keeps_pure _ _
      · exact keeps_pure _ _

theorem Keeps.setting {α : Type} {x : Step α} (h : Keeps account x) : Keeps setting x :=
  fun r => congrArg Prod.fst (h r)

theorem Keeps.tally {α : Type} {x : Step α} {a : α} {r r' : Restorer} (h : Keeps account x) (done : x r = .ok a r') :
    r'.tally = r.tally := by
  have kept := congrArg Prod.snd (h r)
  rwa [after_of_ok done] at kept

theorem count_setting (f : Tally → Tally) : Keeps setting (count f) := fun _ => rfl

theorem dropUnpaired_setting (len : Nat) : Keeps setting (dropUnpaired len) := by
  apply isFull_keeps.setting.bind
  intro full
  apply keeps_ite
  · exact freeDonor_keeps.setting.bind fun _ => (count_setting _).bind fun _ => keeps_pure _ _
  · exact keeps_pure _ _

theorem setSkip_setting (skip : Nat) : Keeps setting (modify fun r => { r with skip } : Step Unit) := fun _ => rfl

theorem showSlots_setting (input : Picture) : Keeps setting (showSlots input) := by
  apply takeSlot_keeps.setting.bind
  intro len
  apply keeps_ite
  · exact (count_setting _).bind fun _ => (keeps_get _).bind fun _ => keeps_pure _ _
  · refine (showDonor_keeps len).setting.bind fun shown => (showInput_keeps input _ _).setting.bind fun done => ?_
    refine (dropUnpaired_setting _).bind fun settled => ?_
    exact (setSkip_setting settled.1).bind fun _ => (keeps_get _).bind fun _ => keeps_pure _ _

theorem step_setting (input : Picture) : Keeps setting (step input) := by
  apply (keeps_get _).bind
  intro r
  apply keeps_ite
  · exact (setSkip_setting _).bind fun _ => (count_setting _).bind fun _ => keeps_pure _ _
  · apply keeps_ite
    · refine (keepInput_keeps input).setting.bind fun _ => ?_
      exact (setSkip_setting _).bind fun _ => (count_setting _).bind fun _ => keeps_pure _ _
    · exact showSlots_setting input

theorem bind_eq_ok {α β : Type} {x : Step α} {f : α → Step β} {b : β} {r r' : Restorer}
    (h : (x >>= f) r = .ok b r') : ∃ a between, x r = .ok a between ∧ f a between = .ok b r' := by
  have opened : EStateM.bind x f r = .ok b r' := h
  rw [EStateM.bind] at opened
  cases done : x r with
  | error stop between => rw [done] at opened; cases opened
  | ok a between =>
    rw [done] at opened
    exact ⟨a, between, rfl, opened⟩

theorem fillSlot_donor {index : Nat} {fill : Restorer → Picture → Picture.Write FilterError} {r r' : Restorer}
    (filled : fillSlot index fill r = .ok () r') : r'.donor = r.donor := by
  unfold fillSlot at filled
  split at filled
  · cases filled
  · split at filled
    · cases filled
    · cases filled
    · cases filled
      rfl

/-- A duplicate field that is left over never meets a donor that waits for its pair. -/
theorem showInput_pairs {input : Picture} {filled len : Nat} {given : Nat × Nat} {r r' : Restorer}
    (shown : showInput input filled len r = .ok given r') (single : given.2 = 1) : r'.donor.full = false := by
  rw [showInput, bind_ok (isFull_run r)] at shown
  cases full : r.donor.full with
  | true =>
    simp only [full, if_true] at shown
    obtain ⟨_, r₁, _, shown⟩ := bind_eq_ok shown
    rw [bind_ok (freeDonor_run r₁)] at shown
    split at shown
    next short =>
      obtain ⟨_, r₂, _, shown⟩ := bind_eq_ok shown
      cases shown
      simp only at single
      omega
    next long =>
      cases shown
      rfl
  | false =>
    simp only [full, Bool.false_eq_true, if_false] at shown
    split at shown
    next long =>
      obtain ⟨_, r₁, kept, shown⟩ := bind_eq_ok shown
      cases shown
      rw [fillSlot_donor kept, full]
    next short =>
      split at shown
      · obtain ⟨_, r₁, _, shown⟩ := bind_eq_ok shown
        obtain ⟨_, r₂, _, shown⟩ := bind_eq_ok shown
        cases shown
        cases single
      · cases shown
        exact full

theorem dropUnpaired_run {len : Nat} {r : Restorer} (paired : len = 1 → r.donor.full = false) :
    dropUnpaired len r = .ok (len, []) r := by
  rw [dropUnpaired, bind_ok (isFull_run r), if_neg]
  · rfl
  · rintro ⟨single, full⟩
    rw [paired single] at full
    cases full

namespace Follows

variable {l : Layout} {r : Restorer} {m : RowRouter} {input : Picture}

theorem showSlots_tally (h : Follows l r m) (fits : input.Fits l) :
    (after (Restorer.showSlots input) r).tally =
      if (({ m with carry := 0 } : RowRouter).scan m.carry).1 = 0 then { r.tally with dropped := r.tally.dropped + 1 }
      else r.tally := by
  obtain ⟨r₁, read, follows, _⟩ := h.takeSlot
  have first := takeSlot_keeps.tally read
  generalize ({ m with carry := 0 } : RowRouter).scan m.carry = taken at read follows ⊢
  obtain ⟨len, m₁⟩ := taken
  simp only at read ⊢
  by_cases empty : len = 0
  · rw [after, Restorer.showSlots, bind_ok read]
    simp only [if_pos empty]
    rw [← first]
    rfl
  · obtain ⟨r₂, donor, follows, _⟩ := follows.showDonor len
    have second := (showDonor_keeps _).tally donor
    have room := m₁.length_showHeld_le len
    obtain ⟨rest, r₃, m₃, run, _, _, _⟩ := follows.showInput fits (Nat.lt_succ_of_le room) (m₁.showHeld len).2.1
    have third := (showInput_keeps _ _ _).tally run
    have settled : Restorer.dropUnpaired rest r₃ = .ok (rest, []) r₃ :=
      dropUnpaired_run fun single => showInput_pairs run single
    rw [after, Restorer.showSlots, bind_ok read]
    simp only [if_neg empty]
    rw [bind_ok donor, bind_ok run, bind_ok settled, ← first, ← second, ← third]
    rfl

theorem step_tally (h : Follows l r m) (fits : input.Fits l) :
    (after (Restorer.step input) r).tally = m.counted r.tally := by
  have run : (get : Step Restorer) r = .ok r r := rfl
  rw [RowRouter.counted]
  by_cases many : 2 ≤ m.skip
  · rw [after, Restorer.step, bind_ok run, h.skip]
    simp only [if_pos many]
    rfl
  · by_cases single : m.skip = 1
    · obtain ⟨r', keep, _, _⟩ := h.keepInput fits
      have kept := (keepInput_keeps input).tally keep
      rw [after, Restorer.step, bind_ok run, h.skip]
      simp only [if_neg many, if_pos single]
      rw [bind_ok keep, ← kept]
      rfl
    · have same : after (Restorer.step input) r = after (Restorer.showSlots input) r := by
        rw [after, Restorer.step, bind_ok run, h.skip]
        simp only [if_neg many, if_neg single]
        rfl
      rw [same, h.showSlots_tally fits, if_neg many, if_neg single]

end Follows

end Restorer

end InverseTelecine
