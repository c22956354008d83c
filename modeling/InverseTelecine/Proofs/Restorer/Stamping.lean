import InverseTelecine.Proofs.Restorer.Calls
import InverseTelecine.Proofs.Restorer.Ledger

namespace InverseTelecine

theorem Clock.emitted_note (c : Clock) (pts : Timestamp) : (c.note pts).emitted = c.emitted := by
  unfold note
  split <;> rfl

theorem Clock.retiming_note (c : Clock) (pts : Timestamp) : (c.note pts).retiming = c.retiming := by
  unfold note
  split <;> rfl

theorem Clock.start_note (c : Clock) (pts : Timestamp) : (c.note pts).start = c.start.or pts.ticks := by
  unfold note
  cases started : c.start with
  | none => rfl
  | some start => exact started

def Clock.receive (c : Clock) (l : Layout) (input : Frame) : Clock := if input.layout = l then c.note input.pts else c

theorem Clock.receive_of_fits {l : Layout} {input : Frame} (fits : input.picture.Fits l) (c : Clock) :
    c.receive l input = c.note input.pts := if_pos fits.layout

theorem Clock.emitted_receive (c : Clock) (l : Layout) (input : Frame) : (c.receive l input).emitted = c.emitted := by
  unfold receive
  split
  · exact c.emitted_note input.pts
  · rfl

theorem Clock.retiming_receive (c : Clock) (l : Layout) (input : Frame) : (c.receive l input).retiming = c.retiming := by
  unfold receive
  split
  · exact c.retiming_note input.pts
  · rfl

namespace Restorer

variable {σ : Type}

def Call.frames (c : Call σ) : List Frame := Exchange.frames c.exchanges

theorem call_of_mismatch {r : Restorer} (ends : Endpoints σ) {input : Frame}
    (differs : input.layout ≠ r.stream.layout) (s : σ) :
    ∃ error, requireLayout r.stream.layout input.layout = .error error ∧
      call ends r input s = ⟨.error (.error error), r, (s, []), []⟩ := by
  cases checked : requireLayout r.stream.layout input.layout with
  | ok _ => exact absurd ((requireLayout_eq_ok_iff _ _).mp checked).symm differs
  | error error => exact ⟨error, rfl, by rw [call, feed, checked]⟩

theorem emitSlots_stream (ends : Endpoints σ) (input : Frame) (slots : List Picture) (r : Restorer) (s : σ) :
    (emitSlots ends input slots r s).restorer.stream = r.stream := by
  induction slots generalizing r s with
  | nil => rfl
  | cons slot slots ih =>
    simp only [emitSlots]
    cases (emit ends slot input r.clock s).result with
    | error stop => rfl
    | ok _ => exact ih _ _

/-- However a call ends, the frames it handed on are stamped one after another by the clock that received the input,
and that clock counts them. -/
theorem call_timed (ends : Endpoints σ) (r : Restorer) (input : Frame) (s : σ) :
    let d := call ends r input s
    let clock := r.clock.receive r.stream.layout input
    d.restorer.stream = r.stream ∧ d.restorer.clock = clock.ahead d.frames.length ∧
      d.frames.map (·.pts) = (List.range d.frames.length).map fun n => (clock.ahead n).nextStamp := by
  by_cases own : input.layout = r.stream.layout
  · have same : requireLayout r.stream.layout input.layout = .ok () := (requireLayout_eq_ok_iff _ _).mpr own.symm
    have setting := step_setting input.picture (r.accept input)
    rw [Clock.receive, if_pos own, call, feed, same]
    rw [after] at setting
    cases stepped : step input.picture (r.accept input) with
    | error stop r' =>
      rw [stepped] at setting
      exact ⟨congrArg Setting.stream setting, congrArg Setting.clock setting, rfl⟩
    | ok done r' =>
      rw [stepped] at setting
      have stream : r'.stream = r.stream := congrArg Setting.stream setting
      have clock : r'.clock = r.clock.note input.pts := congrArg Setting.clock setting
      simp only
      split
      · exact ⟨stream, clock, rfl⟩
      · obtain ⟨passed, record, delivers⟩ := emitSlots_delivers ends input (r'.slots.take done.1) r' (s, [])
        rw [List.nil_append] at record
        rw [clock] at delivers
        simp only [Call.frames, Call.exchanges, record]
        exact ⟨(emitSlots_stream _ _ _ _ _).trans stream, delivers.clock_eq, delivers.times⟩
  · obtain ⟨error, _, unchanged⟩ := call_of_mismatch ends own s
    rw [Clock.receive, if_neg own, unchanged]
    exact ⟨rfl, rfl, rfl⟩

theorem emitted_call (ends : Endpoints σ) (r : Restorer) (input : Frame) (s : σ) :
    (call ends r input s).restorer.clock.emitted = r.clock.emitted + (call ends r input s).frames.length := by
  rw [(call_timed ends r input s).2.1, ← Clock.emitted_receive r.clock r.stream.layout input]
  rfl

theorem emitted_run {ends : Endpoints σ} (r : Restorer) (inputs : List Frame) (s : σ) {i : Nat} {d : Call σ}
    (place : (calls ends r inputs s)[i]? = some d) :
    d.restorer.clock.emitted =
      r.clock.emitted + (((calls ends r inputs s).take (i + 1)).flatMap Call.frames).length := by
  induction inputs generalizing r s i with
  | nil => cases place
  | cons input inputs ih =>
    have first := emitted_call ends r input s
    simp only [calls] at place ⊢
    rw [List.take_succ_cons, List.flatMap_cons, List.length_append]
    cases i with
    | zero =>
      rw [List.getElem?_cons_zero, Option.some.injEq] at place
      rw [← place, first]
      simp
    | succ i =>
      rw [List.getElem?_cons_succ] at place
      rw [ih _ _ place, first]
      omega

/-- The clock stamps the frames of the stream as `retiming` says. -/
structure Clocked (stream : InputStream) (retiming : Retiming) (r : Restorer) : Prop where
  stream_eq : r.stream = stream
  retiming_eq : r.clock.retiming = retiming

def Opened (options : Options) (stream : InputStream) (r : Restorer) : Prop :=
  ∃ (τ : Type) (supply : Supply τ) (t : τ), (start supply options stream t).result = .ok r

inductive Visited (options : Options) (stream : InputStream) : Restorer → Prop where
  | opened {r : Restorer} (opened : r.Opened options stream) : Visited options stream r
  | called {r : Restorer} (visited : Visited options stream r) {σ : Type} (ends : Endpoints σ) (input : Frame) (s : σ) :
    Visited options stream (call ends r input s).restorer
  | rewound {r : Restorer} (visited : Visited options stream r) : Visited options stream r.rewind

/-- Just opened, or rewound after whatever it went through. -/
def Renewed (options : Options) (stream : InputStream) (r : Restorer) : Prop :=
  r.Opened options stream ∨ ∃ q, Visited options stream q ∧ r = q.rewind

variable {options : Options} {stream : InputStream} {c : Cadence} {retiming : Retiming} {r : Restorer}

theorem Started.opened (started : r.Started options stream) : r.Opened options stream := by
  obtain ⟨τ, supply, t, built, _⟩ := started
  exact ⟨τ, supply, t, built⟩

theorem Opened.clock_eq (opened : r.Opened options stream) (accepted : options.cadence = .ok c)
    (derived : (Retiming.derive stream.pace c.ratio).value = .ok retiming) :
    r.stream = stream ∧ r.clock = .new retiming := by
  obtain ⟨τ, supply, t, built⟩ := opened
  obtain ⟨c', retiming', accepted', derived', furnished⟩ := start_eq_ok built
  obtain rfl : c' = c := Except.ok.inj (accepted'.symm.trans accepted)
  obtain rfl : retiming' = retiming := Except.ok.inj (derived'.symm.trans derived)
  obtain ⟨donor, slots, rfl⟩ := furnish_eq_ok furnished
  exact ⟨rfl, rfl⟩

theorem Clocked.call (h : r.Clocked stream retiming) (ends : Endpoints σ) (input : Frame) (s : σ) :
    (call ends r input s).restorer.Clocked stream retiming := by
  obtain ⟨kept, clock, _⟩ := call_timed ends r input s
  refine ⟨kept.trans h.stream_eq, ?_⟩
  rw [clock]
  exact (Clock.retiming_receive _ _ _).trans h.retiming_eq

theorem Visited.clocked (visited : Visited options stream r) (accepted : options.cadence = .ok c)
    (derived : (Retiming.derive stream.pace c.ratio).value = .ok retiming) : r.Clocked stream retiming := by
  induction visited with
  | opened opened =>
    obtain ⟨same, clock⟩ := opened.clock_eq accepted derived
    exact ⟨same, congrArg Clock.retiming clock⟩
  | called _ ends input s ih => exact ih.call ends input s
  | rewound _ ih => exact ⟨ih.stream_eq, ih.retiming_eq⟩

theorem Renewed.clocked (renewed : Renewed options stream r) (accepted : options.cadence = .ok c)
    (derived : (Retiming.derive stream.pace c.ratio).value = .ok retiming) :
    r.Clocked stream retiming ∧ r.clock.start = none ∧ r.clock.emitted = 0 := by
  rcases renewed with opened | ⟨q, visited, rfl⟩
  · obtain ⟨same, clock⟩ := opened.clock_eq accepted derived
    rw [clock]
    exact ⟨⟨same, congrArg Clock.retiming clock⟩, rfl, rfl⟩
  · obtain ⟨same, kept⟩ := visited.clocked accepted derived
    exact ⟨⟨same, kept⟩, rfl, rfl⟩

end Restorer

end InverseTelecine
