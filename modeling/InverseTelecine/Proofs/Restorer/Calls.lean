import InverseTelecine.Proofs.Restorer.Deliveries
import InverseTelecine.Proofs.Restorer.Following
import InverseTelecine.Restorer.Start

namespace InverseTelecine

namespace Restorer

variable {σ : Type} {ends : Endpoints σ} {l : Layout} {r : Restorer} {m : RowRouter}

theorem Follows.emitSlots (h : Follows l r m) (ends : Endpoints σ) (input : Frame) (slots : List Picture) (s : σ) :
    Follows l (Restorer.emitSlots ends input slots r s).restorer m := by
  induction slots generalizing r s with
  | nil => exact h
  | cons slot slots ih =>
    simp only [Restorer.emitSlots]
    cases (emit ends slot input r.clock s).result with
    | error stop => exact h.setCounts _ _
    | ok _ => exact ih (h.setCounts _ _) _

/-- The outcome of a call together with what passed during it. -/
abbrev Call (σ : Type) := Outcome (σ × List Exchange) Nat

namespace Call

def exchanges (c : Call σ) : List Exchange := c.state.2

def shown (c : Call σ) : List Visible := Exchange.shown c.exchanges

/-- No buffer of another layout than `l` was granted. -/
def Supplied (l : Layout) (c : Call σ) : Prop := ∀ x ∈ c.exchanges, x.Supplied l

/-- No buffer was denied or of another layout than `l`, and no frame was refused. -/
def Undisturbed (l : Layout) (c : Call σ) : Prop := ∀ x ∈ c.exchanges, x.Succeeds l

theorem Undisturbed.supplied {c : Call σ} (h : c.Undisturbed l) : c.Supplied l :=
  fun x member => (h x member).supplied

/-- The call handed on the pictures `due` in order, and all of them unless it was disturbed. -/
structure Gives (l : Layout) (c : Call σ) (due : List Visible) : Prop where
  part : c.shown <+: due
  whole : c.Undisturbed l → c.result = .ok due.length ∧ c.shown = due

end Call

def call (ends : Endpoints σ) (r : Restorer) (input : Frame) (s : σ) : Call σ := feed ends.recorded r input (s, [])

theorem call_forget (ends : Endpoints σ) (r : Restorer) (input : Frame) (s : σ) :
    (call ends r input s).forget = feed ends r input s := by
  rw [call, feed, feed]
  cases requireLayout r.stream.layout input.layout with
  | error e => rfl
  | ok _ =>
    simp only
    cases step input.picture (r.accept input) with
    | error stop r' => rfl
    | ok done r' =>
      simp only
      split
      · rfl
      · simp only [← emitSlots_recorded ends input _ r' (s, [])]
        rfl

theorem call_keeps {inv : σ × List Exchange → Prop} (r : Restorer) (input : Frame) {s : σ}
    (each : ∀ slot clock t, inv t → inv (emit ends.recorded slot input clock t).state) (before : inv (s, [])) :
    inv (call ends r input s).state := by
  rw [call, feed]
  split
  · exact before
  · split
    · exact before
    · split
      · exact before
      · exact emitSlots_keeps (fun slot _ => each slot) _ before

/-- One call for each frame; one that fails does not end the run. -/
def calls (ends : Endpoints σ) : Restorer → List Frame → σ → List (Call σ)
  | _, [], _ => []
  | r, input :: inputs, s =>
    let done := call ends r input s
    done :: calls ends done.restorer inputs done.state.1

theorem Follows.accept (h : Follows l r m) (input : Frame) : Follows l (r.accept input) m :=
  h.setCounts _ _

theorem Follows.call_eq (h : Follows l r m) {input : Frame} (fits : input.picture.Fits l) (ends : Endpoints σ) (s : σ) :
    ∃ events r', Restorer.step input.picture (r.accept input) = .ok ((m.step input.picture.visible).1.length, events) r' ∧
      Follows l r' (m.step input.picture.visible).2 ∧
      r'.shownSlots (m.step input.picture.visible).1.length = (m.step input.picture.visible).1 ∧
      let emitted := Restorer.emitSlots ends.recorded input (r'.slots.take (m.step input.picture.visible).1.length) r' (s, [])
      Restorer.call ends r input s =
        { emitted with
          result := emitted.result.map fun _ => (m.step input.picture.visible).1.length
          events := events ++ emitted.events } := by
  obtain ⟨events, r', stepped, follows, slots⟩ := (h.accept input).step fits
  have same : requireLayout r.stream.layout input.layout = .ok () := by
    rw [requireLayout_eq_ok_iff, h.stream]
    exact fits.layout.symm
  have room : ¬ r'.slots.length < (m.step input.picture.visible).1.length := by
    have most := m.length_step_le input.picture.visible
    have two := follows.furnished.slots
    omega
  refine ⟨events, r', stepped, follows, slots, ?_⟩
  simp only [Restorer.call, feed, same, stepped, if_neg room]

theorem Follows.call_keeps (h : Follows l r m) {input : Frame} (fits : input.picture.Fits l) (ends : Endpoints σ) {s : σ}
    {inv : σ × List Exchange → Prop}
    (each : ∀ slot : Picture, slot.Fits l → ∀ clock t, inv t → inv (emit ends.recorded slot input clock t).state)
    (before : inv (s, [])) : inv (Restorer.call ends r input s).state := by
  obtain ⟨_, r', _, follows, _, fed⟩ := h.call_eq fits ends s
  simp only at fed
  rw [fed]
  refine emitSlots_keeps ?_ r' before
  exact fun slot member => each slot (follows.furnished.fits slot (List.mem_of_mem_take member))

/-- A call gives what the router gives, and whatever becomes of it the restorer goes on with the router. -/
theorem Follows.call (h : Follows l r m) {input : Frame} (fits : input.picture.Fits l) (s : σ)
    (supplied : (call ends r input s).Supplied l) :
    (call ends r input s).Gives l (m.step input.picture.visible).1 ∧
      Follows l (call ends r input s).restorer (m.step input.picture.visible).2 := by
  obtain ⟨events, r', _, follows, slots, fed⟩ := h.call_eq fits ends s
  simp only at fed
  rw [fed] at supplied ⊢
  have slotsFit : ∀ p ∈ r'.slots.take (m.step input.picture.visible).1.length, p.Fits l :=
    fun p member => follows.furnished.fits p (List.mem_of_mem_take member)
  obtain ⟨passed, record, delivers⟩ :=
    emitSlots_delivers ends input (r'.slots.take (m.step input.picture.visible).1.length) r' (s, [])
  rw [List.nil_append] at record
  have fine : ∀ x ∈ passed, x.Supplied l := by
    rw [← record]
    exact supplied
  have formed : ∀ x ∈ passed, x.Formed := fun x member => (fine x member).formed
  have part := delivers.shown_initial slotsFit formed
  rw [← shownSlots, slots] at part
  refine ⟨⟨?_, ?_⟩, follows.emitSlots _ _ _ _⟩
  · simp only [Call.shown, Call.exchanges]
    rw [record]
    exact part
  · intro quiet
    have result := (delivers.ok_iff slotsFit formed).mpr (by rw [← record]; exact quiet)
    have count := congrArg List.length slots
    rw [shownSlots, List.length_map] at count
    simp only [Call.shown, Call.exchanges]
    rw [result, record]
    refine ⟨rfl, part.eq_of_length ?_⟩
    rw [← count, ← delivers.length_of_ok result, Exchange.shown, List.length_map]
    rfl

theorem Follows.run (h : Follows l r m) {inputs : List Frame} (fits : ∀ f ∈ inputs, f.picture.Fits l) (s : σ)
    (supplied : ∀ c ∈ calls ends r inputs s, c.Supplied l) :
    List.Forall₂ (Call.Gives l) (calls ends r inputs s) (m.outputs (inputs.map (·.picture.visible))) := by
  induction inputs generalizing r m s with
  | nil => exact .nil
  | cons input inputs ih =>
    simp only [Restorer.calls, List.mem_cons, forall_eq_or_imp] at supplied fits
    obtain ⟨gives, follows⟩ := h.call fits.1 s supplied.1
    exact .cons gives (ih follows fits.2 _ supplied.2)

theorem Follows.calls (h : Follows l r m) {inputs : List Frame} (fits : ∀ f ∈ inputs, f.picture.Fits l) (s : σ)
    (quiet : ∀ c ∈ calls ends r inputs s, c.Undisturbed l) :
    (calls ends r inputs s).map (fun c => (c.result, c.shown)) =
      (m.outputs (inputs.map (·.picture.visible))).map fun out => (.ok out.length, out) := by
  have run := h.run fits s fun c member => (quiet c member).supplied
  generalize Restorer.calls ends r inputs s = done at run quiet
  generalize m.outputs (inputs.map (·.picture.visible)) = outs at run
  induction run with
  | nil => rfl
  | cons gives _ ih =>
    rw [List.forall_mem_cons] at quiet
    obtain ⟨result, shown⟩ := gives.whole quiet.1
    rw [List.map_cons, List.map_cons, result, shown, ih quiet.2]

theorem Follows.map_shown (h : Follows l r m) {inputs : List Frame} (fits : ∀ f ∈ inputs, f.picture.Fits l) (s : σ)
    (quiet : ∀ c ∈ Restorer.calls ends r inputs s, c.Undisturbed l) :
    (Restorer.calls ends r inputs s).map Call.shown = m.outputs (inputs.map (·.picture.visible)) := by
  have run := congrArg (List.map Prod.snd) (h.calls fits s quiet)
  simpa only [List.map_map, Function.comp_def, List.map_id'] using run

theorem Follows.shown (h : Follows l r m) {inputs : List Frame} (fits : ∀ f ∈ inputs, f.picture.Fits l) (s : σ)
    (quiet : ∀ c ∈ Restorer.calls ends r inputs s, c.Undisturbed l) :
    (Restorer.calls ends r inputs s).flatMap Call.shown = (m.outputs (inputs.map (·.picture.visible))).flatten := by
  rw [List.flatMap_def, h.map_shown fits s quiet]

/-- The restorer was started for `options` and `stream`, with buffers of the stream's layout. -/
def Started (options : Options) (stream : InputStream) (r : Restorer) : Prop :=
  ∃ (τ : Type) (supply : Supply τ) (t : τ),
    (start supply options stream t).result = .ok r ∧ r.Furnished stream.layout

theorem start_eq_ok {τ : Type} {supply : Supply τ} {options : Options} {stream : InputStream} {t : τ}
    {r : Restorer} (h : (start supply options stream t).result = .ok r) :
    ∃ cadence retiming, options.cadence = .ok cadence ∧
      (Retiming.derive stream.pace cadence.ratio).value = .ok retiming ∧
      (furnish supply options stream cadence retiming t).1 = .ok r := by
  unfold start at h
  split at h
  · cases h
  next cadence accepted =>
    split at h
    · cases h
    · simp only at h
      split at h
      · cases h
      next retiming derived => exact ⟨cadence, retiming, accepted, derived, h⟩

theorem furnish_eq_ok {τ : Type} {supply : Supply τ} {options : Options} {stream : InputStream} {cadence : Cadence}
    {retiming : Retiming} {t : τ} {r : Restorer}
    (h : (furnish supply options stream cadence retiming t).1 = .ok r) :
    ∃ donor slots, r = fresh options stream cadence retiming donor slots := by
  unfold furnish at h
  repeat (split at h; · cases h)
  cases h
  exact ⟨_, _, rfl⟩

theorem Started.cadence {options : Options} {stream : InputStream} (started : r.Started options stream) :
    ∃ c, options.cadence = .ok c := by
  obtain ⟨τ, supply, t, built, _⟩ := started
  obtain ⟨cadence, _, accepted, _, _⟩ := start_eq_ok built
  exact ⟨cadence, accepted⟩

theorem Started.eq_fresh {options : Options} {stream : InputStream} {c : Cadence} (started : r.Started options stream)
    (accepted : options.cadence = .ok c) :
    ∃ retiming donor slots, (Retiming.derive stream.pace c.ratio).value = .ok retiming ∧
      r = fresh options stream c retiming donor slots ∧ r.Furnished stream.layout := by
  obtain ⟨τ, supply, t, built, furnished⟩ := started
  obtain ⟨cadence, retiming, parsed, derived, furnish⟩ := start_eq_ok built
  obtain ⟨donor, slots, same⟩ := furnish_eq_ok furnish
  obtain rfl : cadence = c := Except.ok.inj (parsed.symm.trans accepted)
  exact ⟨retiming, donor, slots, derived, same, furnished⟩

theorem Started.follows {options : Options} {stream : InputStream} {c : Cadence} (started : r.Started options stream)
    (accepted : options.cadence = .ok c) :
    Follows stream.layout r (.start c.digits options.start options.first) := by
  obtain ⟨retiming, donor, slots, _, rfl, furnished⟩ := started.eq_fresh accepted
  obtain ⟨_, inside, position, carry⟩ := Options.cadence_eq_ok accepted
  rw [RowRouter.start_phase inside, ← position, ← carry]
  exact ⟨rfl, rfl, rfl, rfl, rfl, rfl, rfl, position ▸ Cadence.phaseAt_lt inside, furnished⟩

end Restorer

end InverseTelecine
