import InverseTelecine.Proofs.Restorer.Failures

namespace InverseTelecine

namespace Exchange

/-- At one place of two runs, both were granted a buffer of one layout, or both were denied one for one cause, or
both frames were answered in one way. -/
def Concurs : Exchange → Exchange → Prop
  | granted buffer, granted other => ∃ l, buffer.Fits l ∧ other.Fits l
  | denied cause, denied other => cause = other
  | handed _ answer, handed _ other => answer = other
  | granted _, denied _ => False
  | denied _, granted _ => False
  | _, _ => True

def AllConcur (passed other : List Exchange) : Prop := ∀ p ∈ passed.zip other, p.1.Concurs p.2

end Exchange

theorem zip_initial {α β : Type} (a c : List α) (b d : List β) : a.zip b <+: (a ++ c).zip (b ++ d) := by
  induction a generalizing b with
  | nil => exact List.nil_prefix
  | cons x a ih =>
    cases b with
    | nil => exact List.nil_prefix
    | cons y b => exact (List.prefix_cons_inj (x, y)).mpr (ih b)

section allConcur

variable {a b c d : List Exchange}

theorem Exchange.AllConcur.front (h : AllConcur (a ++ c) (b ++ d)) : AllConcur a b :=
  fun p member => h p ((zip_initial a c b d).subset member)

theorem Exchange.AllConcur.back (h : AllConcur (a ++ c) (b ++ d)) (same : a.length = b.length) : AllConcur c d := by
  intro p member
  apply h
  rw [List.zip_append same]
  exact List.mem_append_right _ member

end allConcur

def Frame.face (f : Frame) : Look × Timestamp := (f.look, f.pts)

variable {l : Layout} {input : Frame} {clock next next' : Clock} {passed passed' : List Exchange}
  {answer answer' : Except (Stop FilterError) Unit}

def Picture.Alike : Except (Stop MediaError) Picture → Except (Stop MediaError) Picture → Prop
  | .error stop, .error stop' => stop = stop'
  | .ok picture, .ok picture' => picture.layout = picture'.layout ∧ picture.visible = picture'.visible
  | _, _ => False

theorem Picture.Fits.paste_alike {buffer other slot slot' : Picture} {own l : Layout} (hb : buffer.Fits own)
    (ho : other.Fits own) (hs : slot.Fits l) (hs' : slot'.Fits l) (same : slot.visible = slot'.visible) :
    Alike (buffer.paste slot).picture (other.paste slot').picture := by
  by_cases fit : own = l
  · subst fit
    obtain ⟨p, pasted, fits, rows⟩ := hb.paste hs
    obtain ⟨p', pasted', fits', rows'⟩ := ho.paste hs'
    rw [pasted, pasted']
    exact ⟨fits.layout.trans fits'.layout.symm, rows.trans (same.trans rows'.symm)⟩
  · rw [Picture.paste, Picture.paste, hb.layout, hs.layout, ho.layout, hs'.layout, if_pos fit, if_pos fit]
    rfl

theorem Emits.concur {slot slot' : Picture} (h : Emits slot input clock passed answer next)
    (h' : Emits slot' input clock passed' answer' next') (fits : slot.Fits l) (fits' : slot'.Fits l)
    (same : slot.visible = slot'.visible) (concur : Exchange.AllConcur passed passed') :
    passed.length = passed'.length ∧ answer = answer' ∧ next = next' ∧
      (Exchange.frames passed).map Frame.face = (Exchange.frames passed').map Frame.face := by
  have alike : ∀ buffer other : Picture, Exchange.Concurs (.granted buffer) (.granted other) →
      Picture.Alike (buffer.paste slot).picture (other.paste slot').picture := by
    rintro buffer other ⟨own, granted, granted'⟩
    exact granted.paste_alike granted' fits fits' same
  -- A buffer denied in one run and granted in the other does not concur.
  cases h with
  | denied cause =>
    cases h' with
    | denied cause' =>
      obtain rfl : cause = cause' := concur (.denied cause, .denied cause') List.mem_cons_self
      exact ⟨rfl, rfl, rfl, rfl⟩
    | misfit unlike => exact (concur (.denied cause, .granted _) List.mem_cons_self).elim
    | handed pasted answer => exact (concur (.denied cause, .granted _) List.mem_cons_self).elim
  | @misfit buffer stop unlike =>
    cases h' with
    | denied cause => exact (concur (.granted buffer, .denied cause) List.mem_cons_self).elim
    | @misfit other stop' unlike' =>
      have both := alike _ _ (concur (.granted buffer, .granted other) List.mem_cons_self)
      rw [unlike, unlike'] at both
      obtain rfl : stop = stop' := both
      exact ⟨rfl, rfl, rfl, rfl⟩
    | @handed other picture pasted answer =>
      have both := alike _ _ (concur (.granted buffer, .granted other) List.mem_cons_self)
      rw [unlike, pasted] at both
      exact both.elim
  | @handed buffer picture pasted answer =>
    cases h' with
    | denied cause => exact (concur (.granted buffer, .denied cause) List.mem_cons_self).elim
    | @misfit other stop unlike =>
      have both := alike _ _ (concur (.granted buffer, .granted other) List.mem_cons_self)
      rw [pasted, unlike] at both
      exact both.elim
    | @handed other picture' pasted' answer' =>
      have both := alike _ _ (concur (.granted buffer, .granted other) List.mem_cons_self)
      rw [pasted, pasted'] at both
      obtain ⟨layout, rows⟩ := both
      obtain rfl : answer = answer' :=
        concur (.handed (clock.stamp picture input) answer, .handed (clock.stamp picture' input) answer') (by simp)
      refine ⟨rfl, rfl, rfl, ?_⟩
      show [(input.dressed picture.layout clock.base picture.visible, clock.nextStamp)] =
        [(input.dressed picture'.layout clock.base picture'.visible, clock.nextStamp)]
      rw [layout, rows]

theorem Delivers.concur {slots slots' : List Picture} (h : Delivers input slots clock passed answer next)
    (h' : Delivers input slots' clock passed' answer' next') (fits : ∀ p ∈ slots, p.Fits l)
    (fits' : ∀ p ∈ slots', p.Fits l) (same : slots.map Picture.visible = slots'.map Picture.visible)
    (concur : Exchange.AllConcur passed passed') :
    answer = answer' ∧ next = next' ∧
      (Exchange.frames passed).map Frame.face = (Exchange.frames passed').map Frame.face := by
  induction h generalizing slots' passed' with
  | done clock =>
    obtain rfl : slots' = [] := List.map_eq_nil_iff.mp same.symm
    cases h'
    exact ⟨rfl, rfl, rfl⟩
  | @stopped slot slots clock next passed stop emits =>
    cases h' with
    | done clock => cases same
    | stopped emits' =>
      simp only [List.map_cons, List.cons.injEq] at same
      exact (emits.concur emits' (fits _ List.mem_cons_self) (fits' _ List.mem_cons_self) same.1 concur).2
    | more emits' delivers' =>
      -- One run stopped at this slot and the other went on: what passed for it would have to differ.
      simp only [List.map_cons, List.cons.injEq] at same
      rw [← List.append_nil passed] at concur
      obtain ⟨_, differ, _⟩ :=
        emits.concur emits' (fits _ List.mem_cons_self) (fits' _ List.mem_cons_self) same.1 concur.front
      cases differ
  | more emits _ ih =>
    cases h' with
    | done clock => cases same
    | @stopped slot' slots' clock' next' passed' stop emits' =>
      simp only [List.map_cons, List.cons.injEq] at same
      rw [← List.append_nil passed'] at concur
      obtain ⟨_, differ, _⟩ :=
        emits.concur emits' (fits _ List.mem_cons_self) (fits' _ List.mem_cons_self) same.1 concur.front
      cases differ
    | more emits' delivers' =>
      simp only [List.map_cons, List.cons.injEq] at same
      obtain ⟨length, _, rfl, faces⟩ :=
        emits.concur emits' (fits _ List.mem_cons_self) (fits' _ List.mem_cons_self) same.1 concur.front
      obtain ⟨answers, clocks, rest⟩ := ih delivers' (fun p member => fits p (List.mem_cons_of_mem _ member))
        (fun p member => fits' p (List.mem_cons_of_mem _ member)) same.2 (concur.back length)
      refine ⟨answers, clocks, ?_⟩
      rw [Exchange.frames_append, Exchange.frames_append, List.map_append, List.map_append, faces, rest]

namespace Restorer

/-- The calls answer alike and hand on frames alike, and the restorers after them differ in nothing that shows. -/
structure Call.Matches {σ τ : Type} (c : Call σ) (d : Call τ) : Prop where
  result : c.result = d.result
  faces : c.frames.map Frame.face = d.frames.map Frame.face
  inStep : InStep c.restorer d.restorer
  clock : c.restorer.clock = d.restorer.clock
  tally : c.restorer.tally = d.restorer.tally

variable {σ τ : Type} {ends : Endpoints σ} {otherEnds : Endpoints τ} {options : Options} {stream : InputStream}
  {c : Cadence} {retiming : Retiming} {q r : Restorer} {m : RowRouter}

theorem Serves.inStep_of_eq (h : Serves options stream c retiming q m) (h' : Serves options stream c retiming r m)
    (clock : q.clock = r.clock) (tally : q.tally = r.tally) : InStep q r :=
  h.inStep h' (congrArg Clock.start clock) (congrArg Tally.inward tally)

theorem Serves.matches_call (h : Serves options stream c retiming q m) (h' : Serves options stream c retiming r m)
    (clock : q.clock = r.clock) (tally : q.tally = r.tally) {input : Frame} (formed : input.picture.Fits input.layout)
    (s : σ) (t : τ)
    (concur : Exchange.AllConcur (Restorer.call ends q input s).exchanges (Restorer.call otherEnds r input t).exchanges) :
    (Restorer.call ends q input s).Matches (Restorer.call otherEnds r input t) ∧
      ∃ m', Serves options stream c retiming (Restorer.call ends q input s).restorer m' ∧
        Serves options stream c retiming (Restorer.call otherEnds r input t).restorer m' := by
  by_cases own : input.layout = stream.layout
  · rw [own] at formed
    obtain ⟨⟨slots, answer, delivered⟩, serves, counted⟩ := h.call formed ends s
    obtain ⟨⟨slots', answer', delivered'⟩, serves', counted'⟩ := h'.call formed otherEnds t
    have delivers := delivered.delivers
    rw [clock] at delivers
    obtain ⟨answers, clocks, faces⟩ := delivers.concur delivered'.delivers delivered.fits delivered'.fits
      (delivered.shows.trans delivered'.shows.symm) concur
    have tallies : (Restorer.call ends q input s).restorer.tally = (Restorer.call otherEnds r input t).restorer.tally := by
      rw [counted, counted', clocks, tally]
    refine ⟨⟨?_, faces, serves.inStep_of_eq serves' clocks tallies, clocks, tallies⟩, _, serves, serves'⟩
    rw [delivered.result, delivered'.result, answers]
  · obtain ⟨error, checked, here⟩ := h.call_of_other own ends s
    obtain ⟨error', checked', there⟩ := h'.call_of_other own otherEnds t
    obtain rfl : error = error' := Except.error.inj (checked.symm.trans checked')
    rw [here, there]
    exact ⟨⟨rfl, rfl, h.inStep_of_eq h' clock tally, clock, tally⟩, m, h, h'⟩

theorem Serves.matches_run (h : Serves options stream c retiming q m) (h' : Serves options stream c retiming r m)
    (clock : q.clock = r.clock) (tally : q.tally = r.tally) {inputs : List Frame}
    (formed : ∀ f ∈ inputs, f.picture.Fits f.layout) (s : σ) (t : τ)
    (concur : ∀ p ∈ (calls ends q inputs s).zip (calls otherEnds r inputs t),
      Exchange.AllConcur p.1.exchanges p.2.exchanges) :
    List.Forall₂ Call.Matches (calls ends q inputs s) (calls otherEnds r inputs t) := by
  induction inputs generalizing q r m s t with
  | nil => exact .nil
  | cons input inputs ih =>
    simp only [calls, List.zip_cons_cons, List.forall_mem_cons] at formed concur ⊢
    obtain ⟨first, m', serves, serves'⟩ := h.matches_call h' clock tally formed.1 s t concur.1
    exact .cons first (ih serves serves' first.clock first.tally formed.2 _ _ concur.2)

/-- A rewound restorer and a new one cannot be told apart by what they hand on, answer or count, whatever the
first one went through. -/
theorem rewound_matches_new (reached : Reached options stream q) (started : r.Started options stream)
    {inputs : List Frame} (formed : ∀ f ∈ inputs, f.picture.Fits f.layout) (s : σ) (t : τ)
    (concur : ∀ p ∈ (calls ends q.rewind inputs s).zip (calls otherEnds r inputs t),
      Exchange.AllConcur p.1.exchanges p.2.exchanges) :
    (InStep q.rewind r ∧ q.rewind.clock = r.clock ∧ q.rewind.tally = r.tally) ∧
      List.Forall₂ Call.Matches (calls ends q.rewind inputs s) (calls otherEnds r inputs t) := by
  obtain ⟨c, accepted⟩ := started.cadence
  obtain ⟨retiming, derived, new⟩ := started.serves accepted
  obtain ⟨retiming', m, derived', serves⟩ := reached.serves accepted
  obtain rfl : retiming = retiming' := Except.ok.inj (derived.symm.trans derived')
  obtain ⟨_, _, _, _, fresh, _⟩ := started.eq_fresh accepted
  have rewound := serves.rewind accepted
  have clock : q.rewind.clock = r.clock := by
    have same : q.rewind.clock.retiming = r.clock.retiming := rewound.clock_retiming.trans new.clock_retiming.symm
    rw [fresh] at same ⊢
    exact congrArg Clock.new same
  have tally : q.rewind.tally = r.tally := by
    rw [fresh]
    rfl
  exact ⟨⟨rewound.inStep_of_eq new clock tally, clock, tally⟩,
    rewound.matches_run new clock tally formed s t concur⟩

theorem Call.Undisturbed.concur {l : Layout} {c : Call σ} {d : Call τ} (h : c.Undisturbed l)
    (h' : d.Undisturbed l) : Exchange.AllConcur c.exchanges d.exchanges := by
  rintro ⟨x, y⟩ member
  have here := h x (List.of_mem_zip member).1
  have there := h' y (List.of_mem_zip member).2
  cases x with
  | granted buffer =>
    cases y with
    | granted other => exact ⟨l, here, there⟩
    | denied cause => exact there.elim
    | handed frame answer => exact True.intro
  | denied cause => exact here.elim
  | handed frame answer =>
    cases y with
    | granted other => exact True.intro
    | denied cause => exact True.intro
    | handed frame answer => exact here.trans there.symm

theorem rewound_matches_new_columns :
    ∃ r, (start (Pool.supply .boundless) .default .columns Pool.columns).result = .ok r ∧
      let inputs := .blank ⟨3, 2, .gray8⟩ .mpeg :: Frame.columns [(2, 3), (2, 5), (4, 7), (6, 7), (8, 9)]
      let q := (call Endpoints.fickle r (.ofPicture (.column 0 1)) 3).restorer.rewind
      (InStep q r ∧ q.clock = r.clock ∧ q.tally = r.tally) ∧
        List.Forall₂ Call.Matches (calls (Pool.supply .boundless).collecting q inputs (Pool.columns, []))
          (calls (Pool.supply .boundless).collecting r inputs (Pool.columns, [])) := by
  obtain ⟨r, built⟩ : ∃ r, (start (Pool.supply .boundless) .default .columns Pool.columns).result = .ok r := ⟨_, rfl⟩
  have started := columns_started built
  have reached : Reached .default .columns (call Endpoints.fickle r (.ofPicture (.column 0 1)) 3).restorer :=
    .called (.started started) Endpoints.fickle (Picture.column_fits 0 1) 3
  refine ⟨r, built, rewound_matches_new reached started ?_ _ _ ?_⟩
  · intro f member
    rcases List.mem_cons.mp member with rfl | column
    · exact Picture.blank_fits _
    · exact (Frame.columns_fit _ f column).own
  · intro p member
    exact (columns_undisturbed _ _ _ (List.of_mem_zip member).1).concur
      (columns_undisturbed _ _ _ (List.of_mem_zip member).2)

end Restorer

end InverseTelecine
