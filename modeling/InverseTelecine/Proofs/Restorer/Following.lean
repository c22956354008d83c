import InverseTelecine.Proofs.Restorer.RowRouter
import InverseTelecine.Restorer.Step

namespace InverseTelecine.Restorer

structure Furnished (r : Restorer) (l : Layout) : Prop where
  donor : r.donor.picture.Fits l
  slots : r.slots.length = 2
  fits : ∀ p ∈ r.slots, p.Fits l

/-- The restorer `r` is where the router `m` is. -/
structure Follows (l : Layout) (r : Restorer) (m : RowRouter) : Prop where
  stream : r.stream.layout = l
  first : r.options.first = m.first
  digits : r.cadence.digits = m.digits
  position : r.cadence.position = m.position
  carry : r.cadence.carry = m.carry
  skip : r.skip = m.skip
  held : m.held = if r.donor.full then some r.donor.picture.visible else none
  inside : m.position < m.digits.length
  furnished : r.Furnished l

def shownSlots (r : Restorer) (count : Nat) : List Visible := (r.slots.take count).map Picture.visible

variable {l : Layout} {r : Restorer} {m : RowRouter} {input : Picture}

theorem bind_ok {α β : Type} {x : Step α} {f : α → Step β} {s s' : Restorer} {a : α}
    (h : x s = .ok a s') : (x >>= f) s = f a s' := by
  show EStateM.bind x f s = _
  rw [EStateM.bind, h]

theorem isFull_run (r : Restorer) : isFull r = .ok r.donor.full r := rfl

theorem freeDonor_run (r : Restorer) : freeDonor r = .ok () { r with donor := r.donor.free } := rfl

namespace Follows

theorem isFull (h : Follows l r m) : r.donor.full = m.held.isSome := by
  rw [h.held]
  cases r.donor.full <;> rfl

theorem held_eq_some (h : Follows l r m) {held : Visible} (full : m.held = some held) :
    r.donor.full = true ∧ r.donor.picture.visible = held := by
  have agrees := h.held
  rw [full] at agrees
  cases flag : r.donor.full with
  | false => rw [flag] at agrees; cases agrees
  | true =>
    rw [flag] at agrees
    exact ⟨rfl, (Option.some.inj agrees).symm⟩

theorem setSkip (h : Follows l r m) (skip : Nat) : Follows l { r with skip } { m with skip } :=
  { h with skip := rfl, furnished := ⟨h.furnished.donor, h.furnished.slots, h.furnished.fits⟩ }

theorem setCounts (h : Follows l r m) (clock : Clock) (tally : Tally) : Follows l { r with clock, tally } m :=
  { h with furnished := ⟨h.furnished.donor, h.furnished.slots, h.furnished.fits⟩ }

theorem free (h : Follows l r m) : Follows l { r with donor := r.donor.free } { m with held := none } :=
  { h with held := rfl, furnished := ⟨h.furnished.donor, h.furnished.slots, h.furnished.fits⟩ }

theorem keepInput (h : Follows l r m) (fits : input.Fits l) :
    ∃ r', Restorer.keepInput input r = .ok () r' ∧ Follows l r' { m with held := some input.visible } ∧
      r'.slots = r.slots := by
  obtain ⟨picture, pasted, copyFits, rows⟩ := h.furnished.donor.paste fits
  refine ⟨{ r with donor := ⟨picture, true⟩ }, ?_, ?_, rfl⟩
  · rw [Restorer.keepInput, Donor.keep, pasted]
  · exact { h with
      held := by simp [rows]
      furnished := ⟨copyFits, h.furnished.slots, h.furnished.fits⟩ }

theorem fillSlot (h : Follows l r m) (index : Nat) (bound : index < 2) {shown : Visible}
    (fill : Restorer → Picture → Picture.Write FilterError)
    (fills : ∀ slot : Picture, slot.Fits l → ∃ out, fill r slot = .ok (.ok (), out) ∧ out.Fits l ∧ out.visible = shown) :
    ∃ r', Restorer.fillSlot index fill r = .ok () r' ∧ Follows l r' m ∧
      r'.shownSlots (index + 1) = r.shownSlots index ++ [shown] ∧ r'.donor = r.donor := by
  have inside : index < r.slots.length := h.furnished.slots ▸ bound
  obtain ⟨out, filled, fits, rows⟩ := fills _ (h.furnished.fits _ (List.getElem_mem inside))
  refine ⟨{ r with slots := r.slots.set index out }, ?_, ?_, ?_, rfl⟩
  · simp only [Restorer.fillSlot, List.getElem?_eq_getElem inside, filled]
  · have all : ∀ p ∈ r.slots.set index out, p.Fits l := by
      intro p member
      rcases List.mem_or_eq_of_mem_set member with old | rfl
      · exact h.furnished.fits p old
      · exact fits
    exact { h with
      furnished := ⟨h.furnished.donor, by rw [List.length_set]; exact h.furnished.slots, all⟩ }
  · have length : index < (r.slots.set index out).length := by
      rw [List.length_set]
      exact inside
    rw [shownSlots, shownSlots, List.take_succ_eq_append_getElem length, List.getElem_set_self,
      List.take_set_of_le (Nat.le_refl _), List.map_append, List.map_singleton, rows]

theorem nextSlot (h : Follows l r m) :
    ∃ r', Restorer.nextSlot r = .ok (m.scan 0).1 r' ∧ Follows l r' (m.scan 0).2 ∧ r'.slots = r.slots := by
  have filled : m.digits ≠ [] := by
    intro none
    have inside := h.inside
    rw [none] at inside
    exact absurd inside (Nat.not_lt_zero _)
  refine ⟨{ r with cadence := r.cadence.nextSlot.2 }, ?_, ?_, rfl⟩
  · rw [RowRouter.scan_zero, ← h.digits, ← h.position]
    rfl
  · rw [RowRouter.scan_zero]
    exact { h with
      position := by rw [← h.digits, ← h.position]; rfl
      inside := Cadence.nextPosition_lt filled m.position
      furnished := ⟨h.furnished.donor, h.furnished.slots, h.furnished.fits⟩ }

theorem takeSlot (h : Follows l r m) :
    ∃ r', Restorer.takeSlot r = .ok (({ m with carry := 0 } : RowRouter).scan m.carry).1 r' ∧
      Follows l r' (({ m with carry := 0 } : RowRouter).scan m.carry).2 ∧ r'.slots = r.slots := by
  have emptied : Follows l { r with cadence := { r.cadence with carry := 0 } } { m with carry := 0 } :=
    { h with carry := rfl, furnished := ⟨h.furnished.donor, h.furnished.slots, h.furnished.fits⟩ }
  have run : Restorer.takeSlot r = .ok r.cadence.takeSlot.1 { r with cadence := r.cadence.takeSlot.2 } := rfl
  rw [run, Cadence.takeSlot, Cadence.takeCarry, h.carry]
  cases m.carry with
  | zero => exact emptied.nextSlot
  | succ carry =>
    rw [RowRouter.scan_of_ne_zero (by exact h.inside) (Nat.succ_ne_zero carry)]
    exact ⟨_, rfl, emptied, rfl⟩

theorem showDonor (h : Follows l r m) (len : Nat) :
    ∃ r', Restorer.showDonor len r = .ok ((m.showHeld len).1.length, (m.showHeld len).2.1) r' ∧
      Follows l r' (m.showHeld len).2.2 ∧ r'.shownSlots (m.showHeld len).1.length = (m.showHeld len).1 := by
  rw [Restorer.showDonor, bind_ok (isFull_run r), RowRouter.showHeld]
  cases full : m.held with
  | none =>
    have empty : r.donor.full = false := by rw [h.isFull, full]; rfl
    exact ⟨r, by simp only [empty, Bool.false_eq_true, and_false, if_false]; rfl, h, rfl⟩
  | some held =>
    obtain ⟨flag, rows⟩ := h.held_eq_some full
    by_cases single : len = 1
    · have fills : ∀ slot : Picture, slot.Fits l →
          ∃ out, slot.replaceBy r.donor.picture = .ok (.ok (), out) ∧ out.Fits l ∧ out.visible = held := by
        intro slot fits
        rw [← rows]
        exact fits.replaceBy h.furnished.donor
      obtain ⟨r₁, filled, follows, slots, _⟩ := h.fillSlot 0 (by omega)
        (fun r slot => slot.replaceBy r.donor.picture) fills
      obtain ⟨r₂, read, settled, kept⟩ := follows.free.nextSlot
      refine ⟨r₂, ?_, by simpa only [if_pos single] using settled, ?_⟩
      · simp only [if_pos single, if_pos (And.intro single flag)]
        rw [bind_ok filled, bind_ok (freeDonor_run r₁), bind_ok read]
        rfl
      · simp only [if_pos single, List.length_singleton]
        rw [shownSlots, kept]
        exact slots
    · exact ⟨r, by simp only [if_neg single, if_neg (fun both : len = 1 ∧ _ => single both.1)]; rfl,
        by simpa only [if_neg single] using h, by simp only [if_neg single]; rfl⟩

def ShowsInput (l : Layout) (r : Restorer) (m : RowRouter) (input : Picture) (filled len : Nat) : Prop :=
  ∃ rest r' m', Restorer.showInput input filled len r =
      .ok (filled + (m.showInput len input.visible).1.length, rest) r' ∧
    Follows l r' m' ∧ m'.settle rest = (m.showInput len input.visible).2 ∧
    r'.shownSlots (filled + (m.showInput len input.visible).1.length) =
      r.shownSlots filled ++ (m.showInput len input.visible).1

theorem showsInput_of_empty (h : Follows l r m) (fits : input.Fits l) {filled : Nat} (bound : filled < 2) (len : Nat)
    (empty : m.held = none) : ShowsInput l r m input filled len := by
  unfold ShowsInput
  rw [Restorer.showInput, bind_ok (isFull_run r), RowRouter.showInput, h.isFull, empty]
  have fills : ∀ slot : Picture, slot.Fits l →
      ∃ out, slot.replaceBy input = .ok (.ok (), out) ∧ out.Fits l ∧ out.visible = input.visible :=
    fun slot slotFits => slotFits.replaceBy fits
  obtain ⟨r₁, run, follows, slots, _⟩ := h.fillSlot filled bound (fun _ slot => slot.replaceBy input) fills
  simp only [Option.isSome_none, Bool.false_eq_true, if_false]
  by_cases long : 2 ≤ len
  · simp only [if_pos long]
    refine ⟨len - 2, r₁, m, ?_, follows, rfl, slots⟩
    rw [bind_ok run]
    rfl
  · by_cases single : len = 1
    · simp only [if_neg long, if_pos single]
      obtain ⟨r₂, keep, held, kept⟩ := follows.keepInput fits
      refine ⟨0, r₂, { m with held := some input.visible }, ?_, held, rfl, ?_⟩
      · rw [bind_ok run, bind_ok keep]
        rfl
      · rw [shownSlots, kept]
        exact slots
    · simp only [if_neg long, if_neg single]
      exact ⟨len, r, m, rfl, h, rfl, (List.append_nil _).symm⟩

theorem showsInput_of_held (h : Follows l r m) (fits : input.Fits l) {filled : Nat} (bound : filled < 2) (len : Nat)
    {held : Visible} (full : m.held = some held) : ShowsInput l r m input filled len := by
  unfold ShowsInput
  rw [Restorer.showInput, bind_ok (isFull_run r), RowRouter.showInput, full]
  obtain ⟨flag, rows⟩ := h.held_eq_some full
  have fills : ∀ slot : Picture, slot.Fits l →
      ∃ out, slot.weave input r.donor.picture r.options.first = .ok (.ok (), out) ∧ out.Fits l ∧
        out.visible = Visible.weave m.first input.visible held := by
    intro slot slotFits
    rw [← rows, ← h.first]
    exact slotFits.weave fits h.furnished.donor r.options.first
  obtain ⟨r₁, run, follows, slots, _⟩ := h.fillSlot filled bound
    (fun r slot => slot.weave input r.donor.picture r.options.first) fills
  simp only [flag, if_true]
  rw [bind_ok run, bind_ok (freeDonor_run r₁)]
  by_cases short : len ≤ 2
  · simp only [if_pos short]
    obtain ⟨r₂, keep, again, kept⟩ := follows.free.keepInput fits
    refine ⟨len - 3, r₂, { m with held := some input.visible }, ?_, again, rfl, ?_⟩
    · rw [bind_ok keep]
      rfl
    · rw [shownSlots, kept]
      exact slots
  · simp only [if_neg short]
    exact ⟨len - 3, { r₁ with donor := r₁.donor.free }, { m with held := none }, rfl, follows.free, rfl, slots⟩

theorem showInput (h : Follows l r m) (fits : input.Fits l) {filled : Nat} (bound : filled < 2) (len : Nat) :
    ShowsInput l r m input filled len := by
  cases full : m.held with
  | none => exact h.showsInput_of_empty fits bound len full
  | some held => exact h.showsInput_of_held fits bound len full

theorem dropUnpaired (h : Follows l r m) (len : Nat) :
    ∃ skip dropped r', Restorer.dropUnpaired len r = .ok (skip, dropped) r' ∧
      Follows l { r' with skip } (m.settle len) ∧ r'.slots = r.slots := by
  rw [Restorer.dropUnpaired, bind_ok (isFull_run r), RowRouter.settle, h.isFull]
  by_cases unpaired : len = 1 ∧ m.held.isSome = true
  · refine ⟨0, [.unpairedDropped],
      { r with donor := r.donor.free, tally := { r.tally with unpaired := r.tally.unpaired + 1 } }, ?_, ?_, rfl⟩
    · rw [if_pos unpaired]
      rfl
    · rw [if_pos unpaired]
      exact (h.free.setCounts _ _).setSkip 0
  · refine ⟨len, [], r, ?_, ?_, rfl⟩
    · rw [if_neg unpaired]
      rfl
    · rw [if_neg unpaired]
      exact h.setSkip len

theorem showSlots (h : Follows l r m) (fits : input.Fits l) :
    ∃ events r', Restorer.showSlots input r = .ok ((m.showSlots input.visible).1.length, events) r' ∧
      Follows l r' (m.showSlots input.visible).2 ∧
      r'.shownSlots (m.showSlots input.visible).1.length = (m.showSlots input.visible).1 := by
  obtain ⟨r₁, read, follows, _⟩ := h.takeSlot
  simp only [Restorer.showSlots, RowRouter.showSlots]
  rw [bind_ok read]
  generalize ({ m with carry := 0 } : RowRouter).scan m.carry = taken at follows
  obtain ⟨len, m₁⟩ := taken
  by_cases empty : len = 0
  · simp only [if_pos empty]
    exact ⟨_, _, rfl, follows.setCounts _ _, rfl⟩
  · simp only [if_neg empty]
    obtain ⟨r₂, donor, follows, shown⟩ := follows.showDonor len
    have room := m₁.length_showHeld_le len
    rw [bind_ok donor]
    generalize m₁.showHeld len = given at follows shown room
    obtain ⟨first, len, m₂⟩ := given
    simp only at follows shown room ⊢
    obtain ⟨rest, r₃, m₃, run, follows, settled, slots⟩ := follows.showInput fits (Nat.lt_succ_of_le room) len
    obtain ⟨skip, dropped, r₄, drop, follows, kept⟩ := follows.dropUnpaired rest
    rw [bind_ok run, bind_ok drop, List.length_append]
    refine ⟨_, { r₄ with skip }, rfl, settled ▸ follows, ?_⟩
    rw [shown] at slots
    rw [← slots, shownSlots, shownSlots, kept]

theorem step (h : Follows l r m) (fits : input.Fits l) :
    ∃ events r', Restorer.step input r = .ok ((m.step input.visible).1.length, events) r' ∧
      Follows l r' (m.step input.visible).2 ∧
      r'.shownSlots (m.step input.visible).1.length = (m.step input.visible).1 := by
  have run : (get : Step Restorer) r = .ok r r := rfl
  rw [Restorer.step, bind_ok run, RowRouter.step, h.skip]
  by_cases many : 2 ≤ m.skip
  · simp only [if_pos many]
    exact ⟨_, _, rfl, (h.setSkip _).setCounts _ _, rfl⟩
  · by_cases single : m.skip = 1
    · simp only [if_neg many, if_pos single]
      obtain ⟨r', keep, follows, _⟩ := h.keepInput fits
      rw [bind_ok keep]
      exact ⟨_, _, rfl, (follows.setSkip 0).setCounts _ _, rfl⟩
    · simp only [if_neg many, if_neg single]
      exact h.showSlots fits

end Follows

end InverseTelecine.Restorer
