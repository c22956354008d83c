import InverseTelecine.Proofs.Restorer.Balance
import InverseTelecine.Proofs.Restorer.Rewinding

namespace InverseTelecine

/-- While `inv` holds, a buffer of the layout is granted, and a frame of it is taken and enters the log. -/
structure Endpoints.Logs {σ β : Type} (ends : Endpoints σ) (l : Layout) (inv : σ → Prop) (log : σ → List β)
    (entry : Frame → List β) : Prop where
  grants : ∀ s, inv s → ∃ buffer next, ends.take s = (.ok buffer, next) ∧ buffer.Fits l ∧ inv next ∧ log next = log s
  accepts : ∀ s frame, inv s → frame.picture.Fits l →
    ∃ next, ends.push s frame = (.ok (), next) ∧ inv next ∧ log next = log s ++ entry frame

structure Logged {σ β : Type} (l : Layout) (inv : σ → Prop) (log : σ → List β) (entry : Frame → List β)
    (before : List β) (s : σ × List Exchange) : Prop where
  state : inv s.1
  log_eq : log s.1 = before ++ (Exchange.frames s.2).flatMap entry
  succeed : ∀ x ∈ s.2, x.Succeeds l
  fits : ∀ f ∈ Exchange.frames s.2, f.picture.Fits l

section logs

variable {σ β : Type} {ends : Endpoints σ} {l : Layout} {inv : σ → Prop} {log : σ → List β} {entry : Frame → List β}
  {before : List β}

theorem Endpoints.Logs.emit (h : ends.Logs l inv log entry) {slot : Picture} (fits : slot.Fits l) (input : Frame)
    (clock : Clock) {s : σ × List Exchange} (logged : Logged l inv log entry before s) :
    Logged l inv log entry before (InverseTelecine.emit ends.recorded slot input clock s).state := by
  obtain ⟨buffer, stocked, granted, bufferFits, kept, same⟩ := h.grants s.1 logged.state
  obtain ⟨picture, pasted, pictureFits, _⟩ := bufferFits.paste fits
  have frameFits : (clock.stamp picture input).picture.Fits l := ⟨pictureFits.layout, pictureFits.planes⟩
  obtain ⟨next, accepted, keptNext, entered⟩ := h.accepts stocked _ kept frameFits
  have frames : Exchange.frames [.granted buffer, .handed (clock.stamp picture input) (.ok ())] =
      [clock.stamp picture input] := rfl
  simp only [InverseTelecine.emit, recorded, granted, pasted, Picture.Write.picture, accepted, List.append_assoc,
    List.cons_append, List.nil_append]
  refine ⟨keptNext, ?_, ?_, ?_⟩
  · rw [entered, same, logged.log_eq, Exchange.frames_append, List.flatMap_append, List.append_assoc, frames,
      List.flatMap_singleton]
  · intro x member
    rcases List.mem_append.mp member with old | new
    · exact logged.succeed x old
    · rcases List.mem_pair.mp new with rfl | rfl
      · exact bufferFits
      · rfl
  · intro f member
    rw [Exchange.frames_append, List.mem_append, frames, List.mem_singleton] at member
    rcases member with old | rfl
    · exact logged.fits f old
    · exact frameFits

namespace Restorer

variable {r : Restorer} {m : RowRouter}

theorem Follows.logged_call (h : Follows l r m) (logs : ends.Logs l inv log entry) {input : Frame}
    (fits : input.picture.Fits l) {s : σ} (kept : inv s) :
    Logged l inv log entry (log s) (Restorer.call ends r input s).state := by
  have empty : Logged l inv log entry (log s) (s, []) :=
    ⟨kept, (List.append_nil _).symm, List.forall_mem_nil _, List.forall_mem_nil _⟩
  exact h.call_keeps fits ends (fun _ slotFits clock _ => logs.emit slotFits input clock) empty

theorem feedAll_cons_of_ok {input : Frame} {s : σ} {n : Nat} (ok : (call ends r input s).result = .ok n)
    (inputs : List Frame) :
    let first := call ends r input s
    let rest := feedAll ends first.restorer inputs first.state.1
    feedAll ends r (input :: inputs) s = { rest with events := first.events ++ rest.events } := by
  simp only [feedAll, ← call_forget ends r input s, Outcome.forget, ok]

theorem Follows.logged_run (h : Follows l r m) (logs : ends.Logs l inv log entry) {inputs : List Frame}
    (fits : ∀ f ∈ inputs, f.picture.Fits l) {s : σ} (kept : inv s) :
    let done := Restorer.calls ends r inputs s
    let all := feedAll ends r inputs s
    (∀ d ∈ done, d.Undisturbed l) ∧ (∀ f ∈ done.flatMap Call.frames, f.picture.Fits l) ∧
      all.result = .ok () ∧ all.restorer = r.lastOf done ∧ inv all.state ∧
      log all.state = log s ++ (done.flatMap Call.frames).flatMap entry := by
  induction inputs generalizing r m s with
  | nil =>
    exact ⟨List.forall_mem_nil _, List.forall_mem_nil _, rfl, rfl, kept, (List.append_nil _).symm⟩
  | cons input inputs ih =>
    rw [List.forall_mem_cons] at fits
    have logged := h.logged_call logs fits.1 kept
    have quiet : (Restorer.call ends r input s).Undisturbed l := logged.succeed
    obtain ⟨gives, follows⟩ := h.call fits.1 s quiet.supplied
    obtain ⟨others, shown, all, last, kept', more⟩ := ih follows fits.2 logged.state
    simp only [Restorer.calls, List.forall_mem_cons, feedAll_cons_of_ok (gives.whole quiet).1, List.flatMap_cons,
      List.flatMap_append]
    refine ⟨⟨quiet, others⟩, ?_, all, last, kept', ?_⟩
    · intro f member
      rcases List.mem_append.mp member with now | later
      · exact logged.fits f now
      · exact shown f later
    · rw [more, logged.log_eq, List.append_assoc]
      rfl

end Restorer

end logs

namespace Restorer

theorem faces_of_matches {σ τ : Type} {done : List (Call σ)} {other : List (Call τ)}
    (h : List.Forall₂ Call.Matches done other) :
    (done.flatMap Call.frames).map Frame.face = (other.flatMap Call.frames).map Frame.face := by
  induction h with
  | nil => rfl
  | cons first _ ih => rw [List.flatMap_cons, List.flatMap_cons, List.map_append, List.map_append, first.faces, ih]

theorem tally_of_matches {σ τ : Type} {done : List (Call σ)} {other : List (Call τ)}
    (h : List.Forall₂ Call.Matches done other) {q r : Restorer} (same : q.tally = r.tally) :
    (q.lastOf done).tally = (r.lastOf other).tally := by
  induction h generalizing q r with
  | nil => exact same
  | cons first _ ih => exact ih first.tally

structure Completes {σ β : Type} (stream : InputStream) (retiming : Retiming) (inputs : Nat) (log : σ → List β)
    (entry : Frame → List β) (before : List β) (outs : List Frame) (all : Outcome σ Unit) : Prop where
  result : all.result = .ok ()
  log_eq : log all.state = before ++ outs.flatMap entry
  fits : ∀ f ∈ outs, f.picture.Fits stream.layout
  retiming_eq : all.restorer.retiming = retiming
  accepted : all.restorer.tally.accepted = inputs
  emitted : all.restorer.tally.emitted = outs.length

variable {σ β τ γ : Type} {ends : Endpoints σ} {otherEnds : Endpoints τ} {options : Options} {stream : InputStream}
  {c : Cadence} {retiming : Retiming} {inv : σ → Prop} {log : σ → List β} {entry : Frame → List β}
  {otherInv : τ → Prop} {otherLog : τ → List γ} {otherEntry : Frame → List γ} {q r : Restorer} {s : σ} {t : τ}

theorem Started.completes (started : r.Started options stream) (accepted : options.cadence = .ok c)
    (derived : (Retiming.derive stream.pace c.ratio).value = .ok retiming)
    (logs : ends.Logs stream.layout inv log entry) {inputs : List Frame}
    (fits : ∀ f ∈ inputs, f.picture.Fits stream.layout) (kept : inv s) :
    Completes stream retiming inputs.length log entry (log s) ((calls ends r inputs s).flatMap Call.frames)
      (feedAll ends r inputs s) ∧ inv (feedAll ends r inputs s).state := by
  obtain ⟨_, shown, result, last, kept', more⟩ := (started.follows accepted).logged_run logs fits kept
  obtain ⟨serves, _, none⟩ := started.new accepted derived
  obtain ⟨counts, _, _, _, after⟩ := serves.counted_run (fun f member => (fits f member).own) ends s
  have all : inputs.countP (·.layout = stream.layout) = inputs.length := by
    rw [List.countP_eq_length]
    exact fun f member => decide_eq_true (fits f member).layout
  refine ⟨⟨result, more, shown, ?_, ?_, ?_⟩, kept'⟩
  · rw [last]
    exact after.retiming_eq
  · rw [last, counts.accepted, none, all]
    exact Nat.zero_add _
  · rw [last, counts.emitted, none]
    exact Nat.zero_add _

theorem Started.agrees (started : q.Started options stream) (other : r.Started options stream)
    (logs : ends.Logs stream.layout inv log entry)
    (otherLogs : otherEnds.Logs stream.layout otherInv otherLog otherEntry)
    {inputs : List Frame} (fits : ∀ f ∈ inputs, f.picture.Fits stream.layout) (kept : inv s) (otherKept : otherInv t) :
    ((calls ends q inputs s).flatMap Call.frames).map Frame.face =
        ((calls otherEnds r inputs t).flatMap Call.frames).map Frame.face ∧
      (feedAll ends q inputs s).restorer.tally = (feedAll otherEnds r inputs t).restorer.tally := by
  obtain ⟨c, accepted⟩ := started.cadence
  obtain ⟨retiming, _, _, derived, _⟩ := started.eq_fresh accepted
  obtain ⟨serves, clock, none⟩ := started.new accepted derived
  obtain ⟨otherServes, otherClock, otherNone⟩ := other.new accepted derived
  obtain ⟨quiet, _, _, last, _⟩ := serves.follows.logged_run logs fits kept
  obtain ⟨otherQuiet, _, _, otherLast, _⟩ := otherServes.follows.logged_run otherLogs fits otherKept
  have tally : q.tally = r.tally := none.trans otherNone.symm
  have lockstep := serves.matches_run otherServes (clock.trans otherClock.symm) tally
    (fun f member => (fits f member).own) s t
    fun p member => (quiet _ (List.of_mem_zip member).1).concur (otherQuiet _ (List.of_mem_zip member).2)
  rw [last, otherLast]
  exact ⟨faces_of_matches lockstep, tally_of_matches lockstep tally⟩

end Restorer

end InverseTelecine
