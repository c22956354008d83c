import InverseTelecine.Proofs.Restorer.Accounts
import InverseTelecine.Proofs.Restorer.Safety
import InverseTelecine.Proofs.Restorer.Timestamps

namespace InverseTelecine

/-- From `t` to `t'`, `came` frames were accepted, `shown` of them completed pictures, and `went` were handed on. -/
structure Tally.Counts (t t' : Tally) (came shown went : Nat) : Prop where
  accepted : t'.accepted = t.accepted + came
  settled : t'.skipped + t'.kept + t'.dropped + shown = t.skipped + t.kept + t.dropped + came
  emitted : t'.emitted = t.emitted + went

theorem Tally.Counts.trans {t t' t'' : Tally} {came shown went came' shown' went' : Nat}
    (h : Counts t t' came shown went) (h' : Counts t' t'' came' shown' went') :
    Counts t t'' (came' + came) (shown' + shown) (went + went') where
  accepted := by
    rw [h'.accepted, h.accepted, Nat.add_assoc, Nat.add_comm came]
  settled := by
    have first := h.settled
    have second := h'.settled
    omega
  emitted := by
    rw [h'.emitted, h.emitted, Nat.add_assoc]

theorem RowRouter.Turn.settled {m next : RowRouter} {input : Visible} {reads : List Nat} {shown : List Visible}
    (h : Turn m input reads shown next) (t : Tally) :
    (m.counted t).skipped + (m.counted t).kept + (m.counted t).dropped + (if 0 < shown.length then 1 else 0) =
      t.skipped + t.kept + t.dropped + 1 := by
  cases h with
  | duplicate more =>
    rw [counted, if_pos more]
    simp only [List.length_nil, Nat.lt_irrefl, if_false]
    omega
  | donor one =>
    rw [counted, if_neg (by omega), if_pos one]
    simp only [List.length_nil, Nat.lt_irrefl, if_false]
    omega
  | empty due read =>
    rw [counted_of_due due, read]
    rfl
  | fresh due read some free => rw [counted_of_due due, read, if_neg (Nat.ne_of_gt some)]; rfl
  | woven due read two full => rw [counted_of_due due, read, if_neg (by simp only; omega)]; rfl
  | last due read full again some => rw [counted_of_due due, read]; rfl
  | lost due read full again => rw [counted_of_due due, read]; rfl

namespace Restorer

def produced (r : Restorer) (input : Frame) : Nat :=
  match step input.picture (r.accept input) with
  | .ok (produced, _) _ => produced
  | .error _ _ => 0

def Shows (r : Restorer) (input : Frame) : Prop := input.layout = r.stream.layout ∧ 0 < r.produced input

instance (r : Restorer) (input : Frame) : Decidable (r.Shows input) := inferInstanceAs (Decidable (_ ∧ _))

def Call.count {σ : Type} (c : Call σ) : Nat := c.result.toOption.getD 0

variable {σ : Type} {ends : Endpoints σ} {options : Options} {stream : InputStream} {c : Cadence}
  {retiming : Retiming} {r : Restorer} {m : RowRouter}

theorem Follows.produced {l : Layout} (h : Follows l r m) {input : Frame} (fits : input.picture.Fits l) :
    r.produced input = (m.step input.picture.visible).1.length := by
  obtain ⟨events, r', stepped, _⟩ := (h.accept input).step fits
  rw [Restorer.produced, stepped]

structure Call.Counted (l : Layout) (r : Restorer) (input : Frame) (d : Call σ) : Prop where
  tally : r.tally.Counts d.restorer.tally (if input.layout = l then 1 else 0) (if r.Shows input then 1 else 0)
    d.frames.length
  few : d.frames.length ≤ 2 * if input.layout = l then 1 else 0
  returned : (input.layout = l → ∃ n, d.result = .ok n) → d.frames.length = d.count

theorem Serves.counted (h : Serves options stream c retiming r m) {input : Frame}
    (formed : input.picture.Fits input.layout) (ends : Endpoints σ) (s : σ) :
    (Restorer.call ends r input s).Counted stream.layout r input := by
  by_cases own : input.layout = stream.layout
  · have few := h.frames_le formed ends s
    have more := emitted_call ends r input s
    rw [own] at formed
    obtain ⟨⟨slots, answer, delivered⟩, serves, tally⟩ := h.call formed ends s
    have settled := (m.step_turn input.picture.visible).settled { r.tally with accepted := r.tally.accepted + 1 }
    have shows : r.Shows input ↔ 0 < (m.step input.picture.visible).1.length := by
      rw [Shows, h.follows.produced formed, h.follows.stream]
      exact and_iff_right own
    rw [← h.emitted, ← serves.emitted] at more
    refine ⟨⟨?_, ?_, more⟩, by rwa [if_pos own], ?_⟩
    · rw [tally, if_pos own]
      exact (m.counted_keeps _).1
    · rw [tally, if_pos own, if_congr shows rfl rfl]
      exact settled
    · intro succeeds
      obtain ⟨n, ok⟩ := succeeds own
      have length : slots.length = (m.step input.picture.visible).1.length := by
        rw [← delivered.shows, List.length_map]
      have result := delivered.result
      rw [ok] at result
      cases answer with
      | error stop => cases result
      | ok _ =>
        rw [Call.count, ok, Except.ok.inj result, ← length]
        exact delivered.delivers.length_of_ok rfl
  · obtain ⟨error, _, unchanged⟩ := h.call_of_other own ends s
    have hidden : ¬ r.Shows input := fun shows => own (shows.1.trans (congrArg InputStream.layout h.stream_eq))
    rw [unchanged]
    exact ⟨by rw [if_neg own, if_neg hidden]; exact ⟨rfl, rfl, rfl⟩, Nat.zero_le _, fun _ => rfl⟩

theorem Serves.counted_run (h : Serves options stream c retiming r m) {inputs : List Frame}
    (formed : ∀ f ∈ inputs, f.picture.Fits f.layout) (ends : Endpoints σ) (s : σ) :
    let done := calls ends r inputs s
    let own := inputs.countP (·.layout = stream.layout)
    r.tally.Counts (r.lastOf done).tally own (((r.befores done).zip inputs).countP fun p => p.1.Shows p.2)
        (done.flatMap Call.frames).length ∧
      (done.flatMap Call.frames).length ≤ 2 * own ∧
      ((∀ p ∈ inputs.zip done, p.1.layout = stream.layout → ∃ n, p.2.result = .ok n) →
        (done.flatMap Call.frames).length = (done.map Call.count).sum) ∧
      ∃ m', Serves options stream c retiming (r.lastOf done) m' := by
  induction inputs generalizing r m s with
  | nil => exact ⟨⟨rfl, rfl, rfl⟩, Nat.le_refl 0, fun _ => rfl, m, h⟩
  | cons input inputs ih =>
    rw [List.forall_mem_cons] at formed
    obtain ⟨m', serves⟩ := h.call_formed formed.1 ends s
    have first := h.counted formed.1 ends s
    obtain ⟨tally, few, returned, last⟩ := ih serves formed.2 (Restorer.call ends r input s).state.1
    have here := first.few
    simp only [calls, befores_cons, List.zip_cons_cons, List.countP_cons, List.flatMap_cons, List.length_append,
      List.map_cons, List.sum_cons, List.forall_mem_cons, decide_eq_true_eq]
    refine ⟨first.tally.trans tally, by omega, ?_, last⟩
    rintro ⟨now, later⟩
    rw [first.returned now, returned later]

theorem Anew.counts_none (anew : r.Anew options stream) :
    ∃ c retiming m, Serves options stream c retiming r m ∧ r.tally = .zero := by
  rcases anew with started | ⟨q, reached, rfl⟩
  · obtain ⟨c, accepted⟩ := started.cadence
    obtain ⟨retiming, _, _, derived, _⟩ := started.eq_fresh accepted
    obtain ⟨serves, _, none⟩ := started.new accepted derived
    exact ⟨c, retiming, _, serves, none⟩
  · obtain ⟨c, accepted⟩ := reached.cadence
    obtain ⟨retiming, _, _, serves⟩ := reached.serves accepted
    exact ⟨c, retiming, _, serves.rewind accepted, rfl⟩

/-- Since the start or a rewinding, whatever was rejected, denied or refused: the frames of the stream's layout are
counted as accepted, each of them is skipped, kept, dropped or completes a picture, and the frames handed on are
those that the clock counts, at most two for each accepted one. -/
theorem counters_balance (anew : r.Anew options stream) {inputs : List Frame}
    (formed : ∀ f ∈ inputs, f.picture.Fits f.layout) (ends : Endpoints σ) (s : σ) :
    let done := calls ends r inputs s
    let last := r.lastOf done
    last.tally.accepted = inputs.countP (·.layout = stream.layout) ∧
      last.tally.emitted = last.clock.emitted ∧ last.tally.emitted = (done.flatMap Call.frames).length ∧
      last.tally.accepted = last.tally.skipped + last.tally.kept + last.tally.dropped +
        ((r.befores done).zip inputs).countP (fun p => p.1.Shows p.2) ∧
      last.tally.emitted ≤ 2 * last.tally.accepted ∧
      ((∀ p ∈ inputs.zip done, p.1.layout = stream.layout → ∃ n, p.2.result = .ok n) →
        last.tally.emitted = (done.map Call.count).sum) := by
  obtain ⟨c, retiming, m, serves, none⟩ := anew.counts_none
  obtain ⟨⟨came, settled, went⟩, few, returned, _, after⟩ := serves.counted_run formed ends s
  rw [none] at came settled went
  simp only [Tally.zero, Nat.zero_add] at came settled went
  refine ⟨came, after.emitted, went, by omega, by rwa [went, came], ?_⟩
  intro succeed
  rw [went, returned succeed]

theorem counters_balance_columns :
    ∃ r, (start (Pool.supply .boundless) ⟨.top, "45", 0⟩ .columns Pool.columns).result = .ok r ∧
      let inputs := .blank ⟨3, 2, .gray8⟩ .mpeg :: Frame.columns [(2, 3), (2, 5), (4, 7), (6, 7), (8, 9)]
      let done := calls Endpoints.fickle r inputs 0
      let last := r.lastOf done
      last.tally = ⟨5, 1, 2, 1, 0, 0⟩ ∧ last.tally.accepted = inputs.countP (·.layout = .column) ∧
        last.tally.emitted = last.clock.emitted ∧ last.tally.emitted = (done.flatMap Call.frames).length ∧
        last.tally.accepted = last.tally.skipped + last.tally.kept + last.tally.dropped +
          ((r.befores done).zip inputs).countP (fun p => p.1.Shows p.2) := by
  obtain ⟨r, built, counted⟩ :
      ∃ r, (start (Pool.supply .boundless) ⟨.top, "45", 0⟩ .columns Pool.columns).result = .ok r ∧
        (r.lastOf (calls Endpoints.fickle r
          (.blank ⟨3, 2, .gray8⟩ .mpeg :: Frame.columns [(2, 3), (2, 5), (4, 7), (6, 7), (8, 9)]) 0)).tally =
          ⟨5, 1, 2, 1, 0, 0⟩ := ⟨_, rfl, by decide +kernel⟩
  have formed : ∀ f ∈ Frame.blank ⟨3, 2, .gray8⟩ .mpeg :: Frame.columns [(2, 3), (2, 5), (4, 7), (6, 7), (8, 9)],
      f.picture.Fits f.layout := by
    intro f member
    rcases List.mem_cons.mp member with rfl | column
    · exact Picture.blank_fits _
    · exact (Frame.columns_fit _ f column).own
  obtain ⟨came, clock, went, settled, _⟩ :=
    counters_balance (.inl (columns_started built)) formed Endpoints.fickle 0
  exact ⟨r, built, counted, came, clock, went, settled⟩

end Restorer

end InverseTelecine
