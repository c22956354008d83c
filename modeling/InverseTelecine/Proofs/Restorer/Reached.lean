import InverseTelecine.Proofs.Restorer.Stamping

namespace InverseTelecine

theorem Picture.Fits.own {l : Layout} {f : Frame} (fits : f.picture.Fits l) : f.picture.Fits f.layout := by
  rwa [show f.layout = l from fits.layout]

namespace Restorer

namespace Call

variable {σ : Type}

def Formed (c : Call σ) : Prop := ∀ x ∈ c.exchanges, x.Formed

/-- The call emitted `slots`, which show the pictures `due`, at the times of `clock`. -/
structure Delivered (l : Layout) (input : Frame) (clock : Clock) (due : List Visible) (c : Call σ)
    (slots : List Picture) (answer : Except (Stop FilterError) Unit) : Prop where
  shows : slots.map Picture.visible = due
  fits : ∀ p ∈ slots, p.Fits l
  delivers : Delivers input slots clock c.exchanges answer c.restorer.clock
  result : c.result = answer.map fun _ => due.length

end Call

inductive Reached (options : Options) (stream : InputStream) : Restorer → Prop where
  | started {r : Restorer} (started : r.Started options stream) : Reached options stream r
  | called {r : Restorer} (reached : Reached options stream r) {σ : Type} (ends : Endpoints σ) {input : Frame}
    (fits : input.picture.Fits input.layout) (s : σ) : Reached options stream (call ends r input s).restorer
  | rewound {r : Restorer} (reached : Reached options stream r) : Reached options stream r.rewind

/-- The restorer is where the router `m` is in the stream, whose cadence was `c` at the start. -/
structure Serves (options : Options) (stream : InputStream) (c : Cadence) (retiming : Retiming) (r : Restorer)
    (m : RowRouter) : Prop where
  follows : Follows stream.layout r m
  options_eq : r.options = options
  stream_eq : r.stream = stream
  retiming_eq : r.retiming = retiming
  clock_retiming : r.clock.retiming = retiming
  cadence_rewind : r.cadence.rewind = c
  emitted : r.tally.emitted = r.clock.emitted

variable {options : Options} {stream : InputStream} {c : Cadence} {retiming : Retiming} {r : Restorer}
  {m : RowRouter} {σ : Type}

theorem Started.new (started : r.Started options stream) (accepted : options.cadence = .ok c)
    (derived : (Retiming.derive stream.pace c.ratio).value = .ok retiming) :
    Serves options stream c retiming r (.start c.digits options.start options.first) ∧ r.clock = .new retiming ∧
      r.tally = .zero := by
  have follows := started.follows accepted
  obtain ⟨retiming', donor, slots, derived', rfl, _⟩ := started.eq_fresh accepted
  obtain rfl : retiming = retiming' := Except.ok.inj (derived.symm.trans derived')
  refine ⟨⟨follows, rfl, rfl, rfl, rfl, ?_, rfl⟩, rfl, rfl⟩
  rw [Options.cadence_eq_ofDigits accepted]
  rfl

theorem Started.serves (started : r.Started options stream) (accepted : options.cadence = .ok c) :
    ∃ retiming, (Retiming.derive stream.pace c.ratio).value = .ok retiming ∧
      Serves options stream c retiming r (.start c.digits options.start options.first) := by
  obtain ⟨retiming, _, _, derived, _⟩ := started.eq_fresh accepted
  exact ⟨retiming, derived, (started.new accepted derived).1⟩

namespace Serves

theorem call (h : Serves options stream c retiming r m) {input : Frame} (fits : input.picture.Fits stream.layout)
    (ends : Endpoints σ) (s : σ) :
    (∃ slots answer, (Restorer.call ends r input s).Delivered stream.layout input (r.clock.note input.pts)
        (m.step input.picture.visible).1 slots answer) ∧
      Serves options stream c retiming (Restorer.call ends r input s).restorer (m.step input.picture.visible).2 ∧
      (Restorer.call ends r input s).restorer.tally =
        { m.counted { r.tally with accepted := r.tally.accepted + 1 } with
          emitted := (Restorer.call ends r input s).restorer.clock.emitted } := by
  obtain ⟨events, r', stepped, follows, shown, called⟩ := h.follows.call_eq fits ends s
  have setting : r'.setting = (r.accept input).setting := by
    rw [← after_of_ok stepped, step_setting]
  have tally : r'.tally = m.counted { r.tally with accepted := r.tally.accepted + 1 } := by
    rw [← after_of_ok stepped, (h.follows.accept input).step_tally fits]
    rfl
  have clock : r'.clock = r.clock.note input.pts := congrArg Setting.clock setting
  have counted : r'.tally.emitted = r'.clock.emitted := by
    rw [tally, RowRouter.counted_emitted, clock, Clock.emitted_note]
    exact h.emitted
  -- From here on only the emissions count, and they start from the clock that saw the input.
  generalize (m.step input.picture.visible).1 = due at shown called ⊢
  simp only at called
  obtain ⟨passed, record, delivers⟩ := emitSlots_delivers ends input (r'.slots.take due.length) r' (s, [])
  obtain ⟨last, same⟩ := emitSlots_restorer ends.recorded input (r'.slots.take due.length) (s, []) counted
  rw [List.nil_append] at record
  have moved := delivers.clock_eq
  rw [same] at delivers moved
  rw [called]
  simp only [same]
  refine ⟨⟨_, _, shown, ?_, ?_, rfl⟩, ⟨follows.setCounts _ _, ?_, ?_, ?_, ?_, ?_, rfl⟩, by rw [tally]⟩
  · exact fun p member => follows.furnished.fits p (List.mem_of_mem_take member)
  · rw [← clock, Call.exchanges, record]
    exact delivers
  · exact (congrArg Setting.options setting).trans h.options_eq
  · exact (congrArg Setting.stream setting).trans h.stream_eq
  · exact (congrArg Setting.retiming setting).trans h.retiming_eq
  · simp only at moved ⊢
    rw [moved, clock]
    exact (Clock.retiming_note _ _).trans h.clock_retiming
  · exact (congrArg Setting.cadence setting).trans h.cadence_rewind

theorem call_of_other (h : Serves options stream c retiming r m) {input : Frame} (other : input.layout ≠ stream.layout)
    (ends : Endpoints σ) (s : σ) :
    ∃ error, requireLayout stream.layout input.layout = .error error ∧
      Restorer.call ends r input s = ⟨.error (.error error), r, (s, []), []⟩ := by
  rw [← h.stream_eq] at other ⊢
  exact call_of_mismatch ends other s

theorem clocked (h : Serves options stream c retiming r m) : r.Clocked stream retiming := ⟨h.stream_eq, h.clock_retiming⟩

theorem call_formed (h : Serves options stream c retiming r m) {input : Frame}
    (formed : input.picture.Fits input.layout) (ends : Endpoints σ) (s : σ) :
    ∃ m', Serves options stream c retiming (Restorer.call ends r input s).restorer m' := by
  by_cases own : input.layout = stream.layout
  · rw [own] at formed
    exact ⟨_, (h.call formed ends s).2.1⟩
  · obtain ⟨error, _, unchanged⟩ := h.call_of_other own ends s
    rw [unchanged]
    exact ⟨m, h⟩

theorem frames_le (h : Serves options stream c retiming r m) {input : Frame} (formed : input.picture.Fits input.layout)
    (ends : Endpoints σ) (s : σ) : (Restorer.call ends r input s).frames.length ≤ 2 := by
  by_cases own : input.layout = stream.layout
  · rw [own] at formed
    obtain ⟨slots, answer, delivered⟩ := (h.call formed ends s).1
    have shown := congrArg List.length delivered.shows
    have most := m.length_step_le input.picture.visible
    rw [List.length_map] at shown
    exact delivered.delivers.length_le.trans (by omega)
  · obtain ⟨error, _, unchanged⟩ := h.call_of_other own ends s
    rw [unchanged]
    exact Nat.zero_le 2

theorem rewind (h : Serves options stream c retiming r m) (accepted : options.cadence = .ok c) :
    Serves options stream c retiming r.rewind (.start c.digits options.start options.first) := by
  obtain ⟨_, inside, position, carry⟩ := Options.cadence_eq_ok accepted
  have rewound : r.rewind.cadence = c := h.cadence_rewind
  refine ⟨?_, h.options_eq, h.stream_eq, h.retiming_eq, h.clock_retiming, ?_, rfl⟩
  · rw [RowRouter.start_phase inside, ← position, ← carry]
    exact ⟨h.follows.stream, congrArg Options.first h.options_eq, congrArg Cadence.digits rewound,
      congrArg Cadence.position rewound, congrArg Cadence.carry rewound, rfl, rfl,
      position ▸ Cadence.phaseAt_lt inside,
      ⟨h.follows.furnished.donor, h.follows.furnished.slots, h.follows.furnished.fits⟩⟩
  · rw [← h.cadence_rewind]
    rfl

end Serves

theorem Reached.serves (reached : Reached options stream r) (accepted : options.cadence = .ok c) :
    ∃ retiming m, (Retiming.derive stream.pace c.ratio).value = .ok retiming ∧
      Serves options stream c retiming r m := by
  induction reached with
  | started started =>
    obtain ⟨retiming, derived, serves⟩ := started.serves accepted
    exact ⟨retiming, _, derived, serves⟩
  | called _ ends fits s ih =>
    obtain ⟨retiming, m, derived, serves⟩ := ih
    obtain ⟨m', serves'⟩ := serves.call_formed fits ends s
    exact ⟨retiming, m', derived, serves'⟩
  | rewound _ ih =>
    obtain ⟨retiming, _, derived, serves⟩ := ih
    exact ⟨retiming, _, derived, serves.rewind accepted⟩

end Restorer

end InverseTelecine
