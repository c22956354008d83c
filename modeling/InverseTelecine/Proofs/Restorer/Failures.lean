import InverseTelecine.Proofs.Restorer.Reached
import InverseTelecine.Proofs.Restorer.Reliable

namespace InverseTelecine

def Tally.inward (t : Tally) : Tally := { t with emitted := 0 }

theorem RowRouter.counted_inward (m : RowRouter) (t : Tally) : (m.counted t).inward = m.counted t.inward := by
  unfold counted
  repeat' split
  all_goals rfl

namespace Restorer

/-- Two restorers are at the same point of the same inputs, whatever became of their frames. -/
structure InStep (r r' : Restorer) : Prop where
  cadence : r.cadence = r'.cadence
  skip : r.skip = r'.skip
  full : r.donor.full = r'.donor.full
  held : r.donor.full = true → r.donor.picture.visible = r'.donor.picture.visible
  start : r.clock.start = r'.clock.start
  inward : r.tally.inward = r'.tally.inward

namespace Call

variable {σ : Type} {c : Call σ} {l : Layout} {input : Frame} {clock : Clock} {due : List Visible}
  {slots : List Picture} {answer : Except (Stop FilterError) Unit}

theorem Undisturbed.formed (h : c.Undisturbed l) : c.Formed := by
  intro x member
  have fine := h x member
  cases x with
  | granted buffer => exact ⟨l, fine⟩
  | denied cause => exact True.intro
  | handed frame answer => exact True.intro

namespace Delivered

theorem looks (h : c.Delivered l input clock due slots answer) (formed : c.Formed) :
    c.frames.map Frame.look <+: due.map (input.dressed l clock.base) := by
  rw [← h.shows, List.map_map]
  exact h.delivers.looks h.fits formed

theorem ok_iff (h : c.Delivered l input clock due slots answer) (formed : c.Formed) :
    answer = .ok () ↔ c.Undisturbed l :=
  h.delivers.ok_iff h.fits formed

theorem looks_eq (h : c.Delivered l input clock due slots answer) (quiet : c.Undisturbed l) :
    c.frames.map Frame.look = due.map (input.dressed l clock.base) := by
  apply (h.looks quiet.formed).eq_of_length
  rw [List.length_map, List.length_map, ← h.shows, List.length_map]
  exact h.delivers.length_of_ok ((h.ok_iff quiet.formed).mpr quiet)

theorem fails_iff (h : c.Delivered l input clock due slots answer) (formed : c.Formed) :
    (∃ stop, c.result = .error stop) ↔ ∃ x ∈ c.exchanges, ¬ x.Succeeds l := by
  have fine := h.ok_iff formed
  rw [h.result]
  cases answer with
  | ok _ =>
    constructor
    · rintro ⟨stop, error⟩
      cases error
    · rintro ⟨x, member, fails⟩
      exact absurd (fine.mp rfl x member) fails
  | error stop =>
    constructor
    · intro _
      apply Classical.byContradiction
      intro none
      have quiet : c.Undisturbed l := fun x member => Classical.byContradiction fun fails => none ⟨x, member, fails⟩
      cases fine.mpr quiet
    · intro _
      exact ⟨stop, rfl⟩

end Delivered

/-- The second call leaves the restorer in step with the first, and what it hands on begins what the first one
does; it fails exactly when an emission of its own does. -/
structure Lags {τ : Type} (l : Layout) (c : Call σ) (d : Call τ) : Prop where
  inStep : InStep c.restorer d.restorer
  looks : d.frames.map Frame.look <+: c.frames.map Frame.look
  fails_iff : (∃ stop, d.result = .error stop) ↔ ∃ x ∈ d.exchanges, ¬ x.Succeeds l

end Call

section run

variable {σ τ : Type} {ends : Endpoints σ} {otherEnds : Endpoints τ} {options : Options} {stream : InputStream}
  {c : Cadence} {retiming : Retiming} {r r' : Restorer} {m : RowRouter}

theorem Serves.inStep (h : Serves options stream c retiming r m) (h' : Serves options stream c retiming r' m)
    (start : r.clock.start = r'.clock.start) (inward : r.tally.inward = r'.tally.inward) : InStep r r' where
  cadence := Cadence.eq_of_rewind (h.cadence_rewind.trans h'.cadence_rewind.symm)
    (h.follows.position.trans h'.follows.position.symm) (h.follows.carry.trans h'.follows.carry.symm)
  skip := h.follows.skip.trans h'.follows.skip.symm
  full := h.follows.isFull.trans h'.follows.isFull.symm
  held := by
    intro full
    have held := h.follows.held
    rw [if_pos full] at held
    exact ((h'.follows.held_eq_some held).2).symm
  start := start
  inward := inward

theorem Serves.clock_base (h : Serves options stream c retiming r m) (pts : Timestamp) :
    (r.clock.note pts).base = retiming.output.base := by
  rw [Clock.base, Clock.retiming_note, h.clock_retiming]

theorem Serves.inward_call (h : Serves options stream c retiming r m) {input : Frame}
    (fits : input.picture.Fits stream.layout) (ends : Endpoints σ) (s : σ) :
    (Restorer.call ends r input s).restorer.tally.inward =
      m.counted { r.tally.inward with accepted := r.tally.inward.accepted + 1 } := by
  rw [(h.call fits ends s).2.2]
  exact m.counted_inward { r.tally with accepted := r.tally.accepted + 1 }

theorem Serves.start_call (h : Serves options stream c retiming r m) {input : Frame}
    (fits : input.picture.Fits stream.layout) (ends : Endpoints σ) (s : σ) :
    (Restorer.call ends r input s).restorer.clock.start = r.clock.start.or input.pts.ticks := by
  rw [(call_timed ends r input s).2.1, h.stream_eq, Clock.receive_of_fits fits, ← Clock.start_note]
  rfl

theorem Serves.lags (h : Serves options stream c retiming r m) (h' : Serves options stream c retiming r' m)
    (start : r.clock.start = r'.clock.start) (inward : r.tally.inward = r'.tally.inward) {input : Frame}
    (fits : input.picture.Fits stream.layout) (s : σ) (t : τ)
    (quiet : (Restorer.call ends r input s).Undisturbed stream.layout)
    (formed : (Restorer.call otherEnds r' input t).Formed) :
    (Restorer.call ends r input s).Lags stream.layout (Restorer.call otherEnds r' input t) := by
  obtain ⟨⟨slots, answer, delivered⟩, serves, _⟩ := h.call fits ends s
  obtain ⟨⟨slots', answer', delivered'⟩, serves', _⟩ := h'.call fits otherEnds t
  refine ⟨serves.inStep serves' ?_ ?_, ?_, delivered'.fails_iff formed⟩
  · rw [h.start_call fits, h'.start_call fits, start]
  · rw [h.inward_call fits, h'.inward_call fits, inward]
  · rw [delivered.looks_eq quiet, h.clock_base, ← h'.clock_base input.pts]
    exact delivered'.looks formed

theorem Serves.lags_run (h : Serves options stream c retiming r m) (h' : Serves options stream c retiming r' m)
    (start : r.clock.start = r'.clock.start) (inward : r.tally.inward = r'.tally.inward) {inputs : List Frame}
    (fits : ∀ f ∈ inputs, f.picture.Fits stream.layout) (s : σ) (t : τ)
    (quiet : ∀ d ∈ calls ends r inputs s, d.Undisturbed stream.layout)
    (formed : ∀ d ∈ calls otherEnds r' inputs t, d.Formed) :
    List.Forall₂ (Call.Lags stream.layout) (calls ends r inputs s) (calls otherEnds r' inputs t) := by
  induction inputs generalizing r r' m s t with
  | nil => exact .nil
  | cons input inputs ih =>
    simp only [calls, List.forall_mem_cons] at fits quiet formed ⊢
    have first := h.lags h' start inward fits.1 s t quiet.1 formed.1
    have serves := (h.call fits.1 ends s).2.1
    have serves' := (h'.call fits.1 otherEnds t).2.1
    exact .cons first (ih serves serves' first.inStep.start first.inStep.inward fits.2 _ _ quiet.2 formed.2)

/-- A run whose buffers may be denied or of another layout, and whose frames may be refused, keeps step with one
that nothing disturbs. What it hands on in a call begins what the other does, but for the times; a call fails
exactly when an emission of it does, and the clock counts the frames handed on, refused ones included. A frame of
another layout changes nothing. -/
theorem failures_stay_local (started : r.Started options stream) (otherStarted : r'.Started options stream)
    {inputs : List Frame} (fits : ∀ f ∈ inputs, f.picture.Fits stream.layout) (s : σ) (t : τ)
    (quiet : ∀ d ∈ calls ends r inputs s, d.Undisturbed stream.layout)
    (formed : ∀ d ∈ calls otherEnds r' inputs t, d.Formed) :
    List.Forall₂ (Call.Lags stream.layout) (calls ends r inputs s) (calls otherEnds r' inputs t) ∧
      (∀ i d, (calls otherEnds r' inputs t)[i]? = some d → d.restorer.clock.emitted =
        (((calls otherEnds r' inputs t).take (i + 1)).flatMap Call.frames).length) ∧
      ∀ (q : Restorer) (input : Frame) (u : τ), input.layout ≠ q.stream.layout →
        ∃ error, requireLayout q.stream.layout input.layout = .error error ∧
          call otherEnds q input u = ⟨.error (.error error), q, (u, []), []⟩ := by
  obtain ⟨c, accepted⟩ := started.cadence
  obtain ⟨retiming, derived, serves⟩ := started.serves accepted
  obtain ⟨retiming', derived', serves'⟩ := otherStarted.serves accepted
  obtain rfl : retiming = retiming' := Except.ok.inj (derived.symm.trans derived')
  obtain ⟨_, _, _, _, fresh, _⟩ := started.eq_fresh accepted
  obtain ⟨_, _, _, _, fresh', _⟩ := otherStarted.eq_fresh accepted
  refine ⟨?_, ?_, ?_⟩
  · exact serves.lags_run serves' (by rw [fresh, fresh']; rfl) (by rw [fresh, fresh']; rfl) fits s t quiet formed
  · intro i d place
    have counted := emitted_run r' inputs t place
    have none : r'.clock.emitted = 0 := by
      rw [fresh']
      rfl
    rw [counted, none, Nat.zero_add]
  · intro q input u differs
    exact call_of_mismatch otherEnds differs u

end run

end Restorer

def Endpoints.fickle : Endpoints Nat where
  layout _ := .column
  take n :=
    (if n % 4 = 1 then .error (.exhausted "no buffer") else if n % 4 = 3 then .ok (.blank ⟨2, 2, .gray8⟩)
      else .ok (.column 7 8), n + 1)
  push n _ := (if n % 3 = 0 then .error (.sink "full") else .ok (), n)

theorem Endpoints.fickle_ensure : fickle.Ensure Exchange.Formed (fun _ => True) where
  grants := by
    intro n buffer next _ taken
    simp only [fickle, Prod.mk.injEq] at taken
    refine ⟨?_, True.intro⟩
    have given := taken.1
    split at given
    · cases given
    · split at given
      · cases given
        exact ⟨_, Picture.blank_fits _⟩
      · cases given
        exact ⟨_, Picture.column_fits 7 8⟩
  denies := fun _ _ _ _ _ => ⟨True.intro, True.intro⟩
  answers := fun _ _ _ _ _ _ => ⟨True.intro, True.intro⟩

namespace Restorer

theorem failures_stay_local_columns :
    ∃ r, (start (Pool.supply .boundless) .default .columns Pool.columns).result = .ok r ∧
      let inputs := Frame.columns [(0, 1), (2, 3), (2, 5), (4, 7), (6, 7), (8, 9)]
      let done := calls Endpoints.fickle r inputs 0
      List.Forall₂ (Call.Lags .column) (calls (Pool.supply .boundless).collecting r inputs (Pool.columns, [])) done ∧
        (∀ i d, done[i]? = some d → d.restorer.clock.emitted = ((done.take (i + 1)).flatMap Call.frames).length) ∧
        call Endpoints.fickle r (.blank ⟨3, 2, .gray8⟩ .mpeg) 0 =
          ⟨.error (.error (.sizeDiffers 1 2 3 2)), r, (0, []), []⟩ := by
  obtain ⟨r, built, stream⟩ :
      ∃ r, (start (Pool.supply .boundless) .default .columns Pool.columns).result = .ok r ∧ r.stream = .columns :=
    ⟨_, rfl, rfl⟩
  obtain ⟨lag, count, mismatch⟩ := failures_stay_local (columns_started built) (columns_started built)
    (Frame.columns_fit [(0, 1), (2, 3), (2, 5), (4, 7), (6, 7), (8, 9)]) _ 0 (columns_undisturbed r _)
    (records_calls Endpoints.fickle_ensure _ r True.intro)
  obtain ⟨error, checked, unchanged⟩ := mismatch r (.blank ⟨3, 2, .gray8⟩ .mpeg) 0 (by rw [stream]; decide)
  rw [stream] at checked
  cases checked
  exact ⟨r, built, lag, count, unchanged⟩

end Restorer

end InverseTelecine
