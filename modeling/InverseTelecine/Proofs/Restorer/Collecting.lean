import InverseTelecine.Proofs.Restorer.Failures
import InverseTelecine.Proofs.Restorer.Recycling

namespace InverseTelecine

theorem Cadence.firstNonzero_mem {digits : List Nat} (found : (firstNonzero digits).1 ≠ 0) :
    (firstNonzero digits).1 ∈ digits := by
  induction digits with
  | nil => exact absurd rfl found
  | cons digit rest ih =>
    cases digit with
    | zero =>
      rw [firstNonzero] at found ⊢
      exact List.mem_cons_of_mem _ (ih found)
    | succ d => exact List.mem_cons_self

namespace RowRouter

/-- No slot of one field is ahead, but for one that a cut left to begin with. -/
structure Ample (m : RowRouter) : Prop where
  digits : 1 ∉ m.digits
  spent : m.carry = 0 ∨ m.held = none ∧ m.skip = 0

variable {m next : RowRouter} {input : Visible} {reads : List Nat} {shown : List Visible}

theorem start_ample {digits : List Nat} {start : Nat} (ample : 1 ∉ digits) (inside : start < Cadence.fieldCount digits)
    (first : FieldParity) : (RowRouter.start digits start first).Ample := by
  rw [start_phase inside]
  exact ⟨ample, .inr ⟨rfl, rfl⟩⟩

namespace Ample

theorem spent_of_skip (h : m.Ample) (more : 0 < m.skip) : m.carry = 0 := by
  rcases h.spent with spent | ⟨_, due⟩
  · exact spent
  · omega

theorem taken_ne_one (h : m.Ample) {held : Visible} (full : m.held = some held) : m.taken.1 ≠ 1 := by
  have spent : m.carry = 0 := by
    rcases h.spent with spent | ⟨empty, _⟩
    · exact spent
    · rw [empty] at full
      cases full
  intro one
  rw [taken, spent, scan_zero] at one
  have member := Cadence.firstNonzero_mem (by rw [one]; exact Nat.one_ne_zero)
  rw [one] at member
  exact h.digits (List.mem_of_mem_drop member)

theorem cover (h : m.Ample) (spent : m.carry = 0) (input : Visible) (fields : Nat) : (m.cover input fields).Ample := by
  unfold RowRouter.cover
  split <;> exact ⟨h.digits, .inl spent⟩

theorem turn (h : m.Ample) (turn : Turn m input reads shown next) : shown.length ≤ 1 ∧ next.Ample := by
  have behind : m.taken.2.Ample := ⟨h.digits, .inl rfl⟩
  cases turn with
  | duplicate more => exact ⟨Nat.zero_le 1, h.digits, .inl (h.spent_of_skip (by omega))⟩
  | donor one => exact ⟨Nat.zero_le 1, h.digits, .inl (h.spent_of_skip (by omega))⟩
  | empty due read =>
    rw [read] at behind
    exact ⟨Nat.zero_le 1, behind⟩
  | @fresh n fields due read some free =>
    obtain rfl : m.taken.2 = n := by rw [read]
    exact ⟨Nat.le_refl 1, behind.cover rfl input fields⟩
  | @woven n fields held due read two full =>
    obtain rfl : m.taken.2 = n := by rw [read]
    exact ⟨Nat.le_refl 1, behind.cover rfl input (fields - 1)⟩
  | last due read full again some => exact absurd (by rw [read]) (h.taken_ne_one full)
  | lost due read full again => exact absurd (by rw [read]) (h.taken_ne_one full)

end Ample

end RowRouter

namespace Exchange

variable {l : Layout} {passed : List Exchange}

def Accepted : Exchange → Prop
  | handed _ answer => answer = .ok ()
  | _ => True

/-- The frames that were handed on before a buffer was denied. -/
def stranded (passed : List Exchange) : List Frame :=
  match passed.getLast? with
  | some (denied _) => frames passed
  | _ => []

theorem stranded_of_denied (before : List Exchange) (cause : MediaError) :
    stranded (before ++ [denied cause]) = frames (before ++ [denied cause]) := by
  rw [stranded, List.getLast?_concat]

theorem stranded_of_quiet (quiet : ∀ x ∈ passed, x.Succeeds l) : stranded passed = [] := by
  unfold stranded
  split
  next cause last => exact (quiet _ (List.mem_of_getLast? last)).elim
  · rfl

end Exchange

section failing

variable {slot : Picture} {slots : List Picture} {input : Frame} {clock next : Clock} {passed : List Exchange}
  {answer : Except (Stop FilterError) Unit} {l : Layout}

theorem Emits.eq_denied (h : Emits slot input clock passed answer next) (failed : answer ≠ .ok ()) (fits : slot.Fits l)
    (supplied : ∀ x ∈ passed, x.Supplied l) (accepted : ∀ x ∈ passed, x.Accepted) :
    ∃ cause, passed = [.denied cause] := by
  have disturbed : ¬ ∀ x ∈ passed, x.Succeeds l :=
    fun quiet => failed ((h.ok_iff fits fun x member => (supplied x member).formed).mpr quiet)
  cases h with
  | denied cause => exact ⟨cause, rfl⟩
  | misfit unlike =>
    refine absurd ?_ disturbed
    exact List.forall_mem_singleton.mpr (supplied _ List.mem_cons_self)
  | handed pasted answer =>
    refine absurd ?_ disturbed
    rw [List.forall_mem_cons, List.forall_mem_singleton] at supplied accepted ⊢
    exact ⟨supplied.1, accepted.2⟩

namespace Delivers

theorem ends_denied (h : Delivers input slots clock passed answer next) (failed : answer ≠ .ok ())
    (fits : ∀ p ∈ slots, p.Fits l) (supplied : ∀ x ∈ passed, x.Supplied l) (accepted : ∀ x ∈ passed, x.Accepted) :
    (∃ before cause, passed = before ++ [.denied cause]) ∧ (Exchange.frames passed).length < slots.length := by
  induction h with
  | done clock => exact absurd rfl failed
  | stopped emits =>
    obtain ⟨cause, rfl⟩ := emits.eq_denied failed (fits _ List.mem_cons_self) supplied accepted
    exact ⟨⟨[], cause, rfl⟩, Nat.succ_pos _⟩
  | @more slot slots clock between next passed rest answer emits _ ih =>
    rw [List.forall_mem_append] at supplied accepted
    rw [List.forall_mem_cons] at fits
    obtain ⟨⟨before, cause, ends⟩, fewer⟩ := ih failed fits.2 supplied.2 accepted.2
    refine ⟨⟨passed ++ before, cause, by rw [ends, List.append_assoc]⟩, ?_⟩
    rw [Exchange.frames_append, List.length_append, emits.length_of_ok rfl, List.length_cons]
    omega

theorem stranded_eq (h : Delivers input slots clock passed answer next) (fits : ∀ p ∈ slots, p.Fits l)
    (supplied : ∀ x ∈ passed, x.Supplied l) (accepted : ∀ x ∈ passed, x.Accepted) :
    (answer = .ok () → Exchange.stranded passed = []) ∧
      (answer ≠ .ok () → Exchange.stranded passed = Exchange.frames passed ∧
        (Exchange.frames passed).length < slots.length) := by
  constructor
  · intro done
    exact Exchange.stranded_of_quiet ((h.ok_iff fits fun x member => (supplied x member).formed).mp done)
  · intro failed
    obtain ⟨⟨before, cause, rfl⟩, fewer⟩ := h.ends_denied failed fits supplied accepted
    exact ⟨Exchange.stranded_of_denied before cause, fewer⟩

end Delivers

end failing

theorem Supply.collecting_accepts {σ : Type} (supply : Supply σ) :
    supply.collecting.Ensure Exchange.Accepted fun _ => True where
  grants := fun _ _ _ _ _ => ⟨True.intro, True.intro⟩
  denies := fun _ _ _ _ _ => ⟨True.intro, True.intro⟩
  answers := by
    intro s frame answer next _ answered
    cases answered
    exact ⟨rfl, True.intro⟩

namespace Pool

structure Stocks (l : Layout) (p : Pool) : Prop where
  layout : p.layout = l
  idle : ∀ q ∈ p.idle, q.Fits l

theorem collecting_supplies (memory : Memory) {l : Layout} :
    (supply memory).collecting.Ensure (Exchange.Supplied l) fun s => s.1.Stocks l where
  grants := by
    intro s buffer next stocks taken
    have takes := s.1.take_takes memory
    simp only [Supply.collecting, supply, Prod.mk.injEq] at taken
    obtain ⟨given, rfl⟩ := taken
    generalize s.1.take memory = answer at takes given
    cases takes with
    | reused waiting =>
      have idle := stocks.idle
      rw [waiting, List.forall_mem_cons] at idle
      cases given
      exact ⟨idle.1, stocks.layout, idle.2⟩
    | made drained below makes =>
      cases given
      exact ⟨stocks.layout ▸ Picture.blank_fits s.1.layout, stocks.layout, stocks.idle⟩
    | limited _ _ _ => cases given
    | exhausted _ _ _ => cases given
  denies := by
    intro s cause next stocks taken
    simp only [Supply.collecting, supply, Prod.mk.injEq] at taken
    obtain ⟨failed, rfl⟩ := taken
    refine ⟨True.intro, ?_⟩
    simp only [take_eq_self_of_error failed]
    exact stocks
  answers := by
    intro s frame answer next stocks answered
    cases answered
    exact ⟨True.intro, stocks⟩

end Pool

namespace Restorer

variable {σ : Type} {supply : Supply σ}

def Outcome.returned (o : Outcome σ (List Frame)) : List Frame :=
  match o.result with
  | .ok frames => frames
  | .error _ => []

namespace Call

def collected (d : Call (σ × List Frame)) : Outcome σ (List Frame) :=
  ⟨d.result.map fun _ => d.state.1.2, d.restorer, d.state.1.1, d.events⟩

def stranded (d : Call σ) : List Frame := Exchange.stranded d.exchanges

end Call

/-- Frames collected for each input; a call that fails does not end the run. -/
def feedEach (supply : Supply σ) : Restorer → List Frame → σ → List (Outcome σ (List Frame))
  | _, [], _ => []
  | r, input :: inputs, s =>
    let done := feedCollecting supply r input s
    done :: feedEach supply done.restorer inputs done.state

def collectingCalls (supply : Supply σ) : Restorer → List Frame → σ → List (Call (σ × List Frame))
  | _, [], _ => []
  | r, input :: inputs, s =>
    let done := call supply.collecting r input (s, [])
    done :: collectingCalls supply done.restorer inputs done.state.1.1

theorem collected_call (supply : Supply σ) (r : Restorer) (input : Frame) (s : σ) :
    (call supply.collecting r input (s, [])).collected = feedCollecting supply r input s := by
  rw [feedCollecting, ← call_forget]
  rfl

theorem collected_collectingCalls (supply : Supply σ) (r : Restorer) (inputs : List Frame) (s : σ) :
    (collectingCalls supply r inputs s).map Call.collected = feedEach supply r inputs s := by
  induction inputs generalizing r s with
  | nil => rfl
  | cons input inputs ih =>
    rw [collectingCalls, feedEach, List.map_cons, ih, ← collected_call]
    rfl

def Collects (t : (σ × List Frame) × List Exchange) : Prop := t.1.2 = Exchange.frames t.2

theorem Collects.emit {t : (σ × List Frame) × List Exchange} (h : Collects t) (slot : Picture) (input : Frame)
    (clock : Clock) : Collects (InverseTelecine.emit supply.collecting.recorded slot input clock t).state := by
  simp only [InverseTelecine.emit, Endpoints.recorded, Supply.collecting]
  unfold Collects at h ⊢
  cases (supply.take t.1.1).1 with
  | error cause => simpa [Exchange.frames, Exchange.frame?, List.filterMap_cons] using h
  | ok buffer =>
    simp only
    cases (buffer.paste slot).picture with
    | error stop => simpa [Exchange.frames, Exchange.frame?, List.filterMap_cons] using h
    | ok picture => simpa [Exchange.frames, Exchange.frame?, List.filterMap_cons] using h

theorem collects_call (supply : Supply σ) (r : Restorer) (input : Frame) (s : σ) :
    Collects (call supply.collecting r input (s, [])).state :=
  call_keeps r input (fun slot clock _ h => h.emit slot input clock) rfl

theorem records_collecting {P : Exchange → Prop} {inv : σ → Prop} (h : supply.collecting.Ensure P fun t => inv t.1)
    (inputs : List Frame) (r : Restorer) {s : σ} (before : inv s) :
    ∀ d ∈ collectingCalls supply r inputs s, ∀ x ∈ d.exchanges, P x := by
  induction inputs generalizing r s with
  | nil => exact List.forall_mem_nil _
  | cons input inputs ih =>
    have first := records_call h r input (s := (s, [])) before
    rw [collectingCalls, List.forall_mem_cons]
    exact ⟨first.record, ih _ first.state⟩

section counts

variable {options : Options} {stream : InputStream} {c : Cadence} {retiming : Retiming} {r : Restorer} {m : RowRouter}

theorem Serves.frames_collecting (h : Serves options stream c retiming r m) {input : Frame}
    (formed : input.picture.Fits input.layout) (s : σ)
    (supplied : (Restorer.call supply.collecting r input (s, [])).Supplied stream.layout) :
    let d := Restorer.call supply.collecting r input (s, [])
    d.frames = d.collected.returned ++ d.stranded ∧
      d.stranded.length ≤ (m.step input.picture.visible).1.length - 1 := by
  by_cases own : input.layout = stream.layout
  · rw [own] at formed
    obtain ⟨slots, answer, delivered⟩ := (h.call formed supply.collecting (s, [])).1
    have accepted := (records_call supply.collecting_accepts r input (s := (s, [])) True.intro).record
    obtain ⟨whole, failing⟩ := delivered.delivers.stranded_eq delivered.fits supplied accepted
    have due := congrArg List.length delivered.shows
    rw [List.length_map] at due
    have collects := collects_call supply r input s
    have result := delivered.result
    generalize Restorer.call supply.collecting r input (s, []) = d at whole failing collects result ⊢
    simp only [Outcome.returned, Call.collected, result, Call.stranded]
    cases answer with
    | ok _ =>
      rw [whole rfl]
      exact ⟨collects.symm.trans (List.append_nil _).symm, Nat.zero_le _⟩
    | error stop =>
      obtain ⟨same, fewer⟩ := failing (fun same => nomatch same)
      rw [same]
      refine ⟨rfl, ?_⟩
      rw [due] at fewer
      exact Nat.le_sub_one_of_lt fewer
  · obtain ⟨error, _, unchanged⟩ := h.call_of_other own supply.collecting (s, [])
    rw [unchanged]
    exact ⟨rfl, Nat.zero_le _⟩

theorem Serves.tally_collecting (h : Serves options stream c retiming r m) {input : Frame}
    (formed : input.picture.Fits input.layout) (s : σ)
    (supplied : (Restorer.call supply.collecting r input (s, [])).Supplied stream.layout) :
    let d := Restorer.call supply.collecting r input (s, [])
    d.restorer.tally.emitted = r.tally.emitted + d.collected.returned.length + d.stranded.length := by
  intro d
  obtain ⟨m', serves⟩ := h.call_formed formed supply.collecting (s, [])
  have frames := congrArg List.length (h.frames_collecting formed s supplied).1
  rw [List.length_append] at frames
  rw [serves.emitted, emitted_call, h.emitted, frames, Nat.add_assoc]

theorem Serves.tally_collectingCalls (h : Serves options stream c retiming r m) {inputs : List Frame}
    (formed : ∀ f ∈ inputs, f.picture.Fits f.layout) (s : σ)
    (supplied : ∀ d ∈ collectingCalls supply r inputs s, d.Supplied stream.layout) {i : Nat}
    {d : Call (σ × List Frame)} (place : (collectingCalls supply r inputs s)[i]? = some d) :
    d.restorer.tally.emitted = r.tally.emitted +
      (((collectingCalls supply r inputs s).take (i + 1)).flatMap fun d => d.collected.returned).length +
      (((collectingCalls supply r inputs s).take (i + 1)).flatMap Call.stranded).length := by
  induction inputs generalizing r m s i with
  | nil => cases place
  | cons input inputs ih =>
    simp only [collectingCalls, List.forall_mem_cons] at formed supplied place ⊢
    obtain ⟨m', serves⟩ := h.call_formed formed.1 supply.collecting (s, [])
    have first := h.tally_collecting formed.1 s supplied.1
    simp only [List.take_succ_cons, List.flatMap_cons, List.length_append]
    cases i with
    | zero =>
      rw [List.getElem?_cons_zero, Option.some.injEq] at place
      rw [← place, first]
      simp
    | succ i =>
      rw [List.getElem?_cons_succ] at place
      rw [ih serves formed.2 _ supplied.2 place, first]
      omega

theorem Serves.ample_call (h : Serves options stream c retiming r m) {input : Frame}
    (formed : input.picture.Fits input.layout) (ends : Endpoints σ) (s : σ) :
    ∃ m', Serves options stream c retiming (Restorer.call ends r input s).restorer m' ∧ (m.Ample → m'.Ample) := by
  by_cases own : input.layout = stream.layout
  · rw [own] at formed
    exact ⟨_, (h.call formed ends s).2.1, fun ample => (ample.turn (m.step_turn input.picture.visible)).2⟩
  · obtain ⟨_, _, unchanged⟩ := h.call_of_other own ends s
    rw [unchanged]
    exact ⟨m, h, id⟩

theorem Serves.exists_collecting (h : Serves options stream c retiming r m) {inputs : List Frame}
    (formed : ∀ f ∈ inputs, f.picture.Fits f.layout) (s : σ) {d : Call (σ × List Frame)}
    (member : d ∈ collectingCalls supply r inputs s) :
    ∃ r' m' input s', Serves options stream c retiming r' m' ∧ (m.Ample → m'.Ample) ∧ input ∈ inputs ∧
      d = Restorer.call supply.collecting r' input (s', []) := by
  induction inputs generalizing r m s with
  | nil => cases member
  | cons input inputs ih =>
    rw [List.forall_mem_cons] at formed
    rw [collectingCalls] at member
    rcases List.mem_cons.mp member with rfl | later
    · exact ⟨r, m, input, s, h, id, List.mem_cons_self, rfl⟩
    · obtain ⟨m₁, serves, ample⟩ := h.ample_call formed.1 supply.collecting (s, [])
      obtain ⟨r', m', other, s', serves', ample', among, same⟩ := ih serves formed.2 _ later
      exact ⟨r', m', other, s', serves', ample' ∘ ample, List.mem_cons_of_mem _ among, same⟩

/-- Every frame that a call emits is returned, or else the call fails and it is stranded; no call strands more than one,
and none does if every slot has more than one field. -/
theorem collecting_counts (started : r.Started options stream) {inputs : List Frame}
    (formed : ∀ f ∈ inputs, f.picture.Fits f.layout) (s : σ)
    (supplied : ∀ d ∈ collectingCalls supply r inputs s, d.Supplied stream.layout) :
    (collectingCalls supply r inputs s).map Call.collected = feedEach supply r inputs s ∧
      (∀ d ∈ collectingCalls supply r inputs s,
        d.frames = d.collected.returned ++ d.stranded ∧ d.stranded.length ≤ 1) ∧
      (∀ i o, (feedEach supply r inputs s)[i]? = some o → o.restorer.tally.emitted =
        (((feedEach supply r inputs s).take (i + 1)).flatMap Outcome.returned).length +
          (((collectingCalls supply r inputs s).take (i + 1)).flatMap Call.stranded).length) ∧
      ∀ c, options.cadence = .ok c → 1 ∉ c.digits → ∀ d ∈ collectingCalls supply r inputs s, d.stranded = [] := by
  obtain ⟨c, accepted⟩ := started.cadence
  obtain ⟨retiming, _, serves⟩ := started.serves accepted
  have collected := collected_collectingCalls supply r inputs s
  refine ⟨collected, ?_, ?_, ?_⟩
  · intro d member
    obtain ⟨r', m', input, s', serves', _, among, rfl⟩ := serves.exists_collecting formed s member
    obtain ⟨frames, few⟩ := serves'.frames_collecting (formed input among) s' (supplied _ member)
    have most := m'.length_step_le input.picture.visible
    exact ⟨frames, by omega⟩
  · intro i o place
    rw [← collected, List.getElem?_map, Option.map_eq_some_iff] at place
    obtain ⟨d, place, rfl⟩ := place
    have counted := serves.tally_collectingCalls formed s supplied place
    obtain ⟨_, _, _, _, fresh, _⟩ := started.eq_fresh accepted
    have none : r.tally.emitted = 0 := by
      rw [fresh]
      rfl
    rw [none, Nat.zero_add] at counted
    rw [← collected, ← List.map_take, List.flatMap_map]
    exact counted
  · intro c' accepted' ample d member
    obtain rfl : c = c' := Except.ok.inj (accepted.symm.trans accepted')
    have start := RowRouter.start_ample ample (Options.cadence_eq_ok accepted).inside options.first
    obtain ⟨r', m', input, s', serves', ample', among, rfl⟩ := serves.exists_collecting formed s member
    have few := (serves'.frames_collecting (formed input among) s' (supplied _ member)).2
    have single := ((ample' start).turn (m'.step_turn input.picture.visible)).1
    apply List.eq_nil_of_length_eq_zero
    omega

end counts

theorem collecting_counts_columns :
    ∃ r, (start (Pool.supply .boundless) ⟨.top, "1", 0⟩ .columns (.empty .column 0 (some 5))).result = .ok r ∧
      let pool : Pool := ⟨.column, 0, some 5, [], 3⟩
      let inputs := Frame.columns [(0, 1), (2, 3), (4, 5)]
      let done := feedEach (Pool.supply .boundless) r inputs pool
      let calls := collectingCalls (Pool.supply .boundless) r inputs pool
      calls.map Call.collected = done ∧
        (∀ d ∈ calls, d.frames = d.collected.returned ++ d.stranded ∧ d.stranded.length ≤ 1) ∧
        ∀ i o, done[i]? = some o → o.restorer.tally.emitted =
          ((done.take (i + 1)).flatMap Outcome.returned).length + ((calls.take (i + 1)).flatMap Call.stranded).length := by
  obtain ⟨r, built⟩ :
    ∃ r, (start (Pool.supply .boundless) ⟨.top, "1", 0⟩ .columns (.empty .column 0 (some 5))).result = .ok r := ⟨_, rfl⟩
  obtain ⟨_, started, _⟩ := start_of_empty (m := 2) (by decide) built
  obtain ⟨same, whole, counts, _⟩ := collecting_counts started
    (fun f member => (Frame.columns_fit [(0, 1), (2, 3), (4, 5)] f member).own) ⟨.column, 0, some 5, [], 3⟩
    (records_collecting (Pool.collecting_supplies .boundless) _ r ⟨rfl, List.forall_mem_nil _⟩)
  exact ⟨r, built, same, whole, counts⟩

/-- The pool has buffers for two frames. The second input completes two, of which only the first can be emitted. -/
theorem collecting_loses_frame :
    ∃ r, (start (Pool.supply .boundless) ⟨.top, "1", 0⟩ .columns (.empty .column 0 (some 5))).result = .ok r ∧
      let pool := (start (Pool.supply .boundless) ⟨.top, "1", 0⟩ .columns (.empty .column 0 (some 5))).state
      let inputs := Frame.columns [(0, 1), (2, 3)]
      (∀ d ∈ collectingCalls (Pool.supply .boundless) r inputs pool, d.Supplied .column) ∧
        (feedEach (Pool.supply .boundless) r inputs pool).map (fun o => (o.restorer.tally.emitted, o.returned.length)) =
          [(1, 1), (2, 0)] :=
  ⟨_, rfl, records_collecting (Pool.collecting_supplies .boundless) _ _ ⟨rfl, List.forall_mem_nil _⟩, rfl⟩

end Restorer

end InverseTelecine
