import InverseTelecine.Proofs.Restorer.Rewinding
import InverseTelecine.Proofs.Retiming

namespace InverseTelecine

def Timestamp.Proper (t : Timestamp) : Prop := ∀ x, t.ticks = some x → Signed64.least < x ∧ x ≤ Signed64.greatest

def firstStamp (l : Layout) (inputs : List Frame) : Option Int :=
  (inputs.filter (·.layout = l)).findSome? (·.pts.ticks)

section firstStamp

variable {l : Layout} {inputs : List Frame} {b : Int}

theorem firstStamp_cons (l : Layout) (f : Frame) (inputs : List Frame) :
    firstStamp l (f :: inputs) = (if f.layout = l then f.pts.ticks else none).or (firstStamp l inputs) := by
  unfold firstStamp
  by_cases own : f.layout = l
  · rw [List.filter_cons_of_pos (by simpa using own), List.findSome?_cons, if_pos own]
    cases f.pts.ticks with
    | none => rfl
    | some x => rfl
  · rw [List.filter_cons_of_neg (by simpa using own), if_neg own]
    rfl

theorem firstStamp_append {front : List Frame} (known : firstStamp l front = some b) (back : List Frame) :
    firstStamp l (front ++ back) = some b := by
  unfold firstStamp at known ⊢
  rw [List.filter_append, List.findSome?_append, known]
  rfl

theorem firstStamp_take {i j : Nat} (order : i ≤ j) (known : firstStamp l (inputs.take i) = some b) :
    firstStamp l (inputs.take j) = some b := by
  rw [show j = i + (j - i) by omega, List.take_add]
  exact firstStamp_append known _

theorem firstStamp_proper (proper : ∀ f ∈ inputs, f.pts.Proper) (known : firstStamp l inputs = some b) :
    Signed64.least < b := by
  obtain ⟨f, member, ticks⟩ := List.exists_of_findSome?_eq_some known
  exact (proper f (List.mem_filter.mp member).1 b ticks).1

end firstStamp

theorem Clock.start_receive (c : Clock) (l : Layout) (input : Frame) (inputs : List Frame) :
    (c.receive l input).start.or (firstStamp l inputs) = c.start.or (firstStamp l (input :: inputs)) := by
  rw [firstStamp_cons, receive]
  split
  · rw [start_note, Option.or_assoc]
  · rw [Option.none_or]

/-- The timestamp of the frame that goes out after `k` others, when the clock started at `start`. -/
def Retiming.stamp (t : Retiming) (start : Option Int) (k : Nat) : Timestamp :=
  .ofTicks (Signed64.saturate (start.getD 0 + t.offset k)) t.output.base

/-- The index of the frame that goes out after `k` others and its offset are 64-bit numbers. -/
def Retiming.Reaches (t : Retiming) (k : Nat) : Prop :=
  Signed64.Fits k ∧ Signed64.Fits (nearest (k * t.frameTicks.value))

theorem Retiming.Reaches.of_le {t : Retiming} {j k : Nat} (h : t.Reaches k) (positive : 0 < t.frameTicks.value)
    (order : j ≤ k) : t.Reaches j := by
  have earlier : (j : ℚ) * t.frameTicks.value ≤ k * t.frameTicks.value :=
    mul_le_mul_of_nonneg_right (Nat.cast_le.mpr order) positive.le
  have index := h.1.2
  refine ⟨⟨le_trans (by decide) (Int.natCast_nonneg j), by omega⟩, ?_⟩
  exact ⟨le_trans (by decide) (nearest_nonneg (by positivity)), (nearest_mono earlier).trans h.2.2⟩

theorem Retiming.stamp_eq {t : Retiming} {k : Nat} (positive : 0 < t.frameTicks.den) (h : t.Reaches k)
    (start : Option Int) :
    t.stamp start k = .ofTicks (Signed64.saturate (start.getD 0 + nearest (k * t.frameTicks.value))) t.output.base := by
  rw [stamp, offset, Rational.scale_eq_nearest positive, Signed64.truncate_of_fits h.1, Int.cast_natCast,
    Signed64.truncate_of_fits h.2]

theorem Timestamp.ofTicks_saturate {x : Int} (above : Signed64.least < x) (base : TimeBase) :
    (ofTicks (Signed64.saturate x) base).ticks = some (Signed64.saturate x) :=
  ofTicks_of_ne (Signed64.least_lt_saturate above).ne' base

theorem getElem?_flatMap {α β : Type} {f : α → List β} {xs : List α} {k : Nat} {y : β}
    (place : (xs.flatMap f)[k]? = some y) :
    ∃ i x n, xs[i]? = some x ∧ (f x)[n]? = some y ∧ k = ((xs.take i).flatMap f).length + n := by
  induction xs generalizing k with
  | nil => cases place
  | cons x xs ih =>
    rw [List.flatMap_cons] at place
    rcases Nat.lt_or_ge k (f x).length with inside | after
    · rw [List.getElem?_append_left inside] at place
      exact ⟨0, x, k, rfl, place, by simp⟩
    · rw [List.getElem?_append_right after] at place
      obtain ⟨i, x', n, outer, inner, same⟩ := ih place
      refine ⟨i + 1, x', n, outer, inner, ?_⟩
      rw [List.take_succ_cons, List.flatMap_cons, List.length_append]
      omega

theorem length_flatMap_take {α β : Type} {f : α → List β} {xs : List α} {i j : Nat} {x : α} (place : xs[i]? = some x)
    (order : i < j) : ((xs.take i).flatMap f).length + (f x).length ≤ ((xs.take j).flatMap f).length := by
  obtain ⟨rest, rfl⟩ := Nat.exists_eq_add_of_lt order
  rw [show i + rest + 1 = i + 1 + rest by omega, List.take_add, List.take_add_one, place]
  simp only [Option.toList_some, List.flatMap_append, List.flatMap_singleton, List.length_append]
  omega

theorem place_lt_length {α β : Type} {f : α → List β} {xs : List α} {i n : Nat} {x : α} {y : β}
    (place : xs[i]? = some x) (inner : (f x)[n]? = some y) :
    ((xs.take i).flatMap f).length + n < (xs.flatMap f).length := by
  obtain ⟨inside, _⟩ := List.getElem?_eq_some_iff.mp place
  obtain ⟨within, _⟩ := List.getElem?_eq_some_iff.mp inner
  have whole := length_flatMap_take (f := f) place inside
  rw [List.take_length] at whole
  omega

theorem outer_le_of_place_le {α β : Type} {f : α → List β} {xs : List α} {i i' n n' : Nat} {x' : α} {y' : β}
    (place' : xs[i']? = some x') (inner' : (f x')[n']? = some y')
    (order : ((xs.take i).flatMap f).length + n ≤ ((xs.take i').flatMap f).length + n') : i ≤ i' := by
  by_contra backward
  have before := length_flatMap_take (f := f) place' (Nat.lt_of_not_le backward)
  obtain ⟨within, _⟩ := List.getElem?_eq_some_iff.mp inner'
  omega

namespace Restorer

/-- The first defined timestamp is not negative, or comes no later than the first frame that is handed on. -/
def Steady {σ : Type} (l : Layout) (inputs : List Frame) (done : List (Call σ)) : Prop :=
  ∀ b, firstStamp l inputs = some b →
    0 ≤ b ∨ ∀ i d, done[i]? = some d → d.frames ≠ [] → (firstStamp l (inputs.take (i + 1))).isSome

theorem Steady.start_mono {σ : Type} {l : Layout} {inputs : List Frame} {done : List (Call σ)}
    (h : Steady l inputs done) {i j : Nat} {d : Call σ} (place : done[i]? = some d) (handed : d.frames ≠ [])
    (order : i ≤ j) :
    (firstStamp l (inputs.take (i + 1))).getD 0 ≤ (firstStamp l (inputs.take (j + 1))).getD 0 := by
  cases early : firstStamp l (inputs.take (i + 1)) with
  | some b =>
    rw [firstStamp_take (Nat.succ_le_succ order) early]
  | none =>
    cases late : firstStamp l (inputs.take (j + 1)) with
    | none => exact le_refl _
    | some b =>
      -- The clock was started behind a frame that had gone out; only a negative start would turn it back.
      have whole := firstStamp_append late (inputs.drop (j + 1))
      rw [List.take_append_drop] at whole
      rcases h b whole with nonneg | seen
      · exact nonneg
      · have known := seen i d place handed
        rw [early] at known
        cases known

variable {σ : Type} {ends : Endpoints σ} {options : Options} {stream : InputStream} {c : Cadence}
  {retiming : Retiming} {r : Restorer} {m : RowRouter}

theorem Clocked.stamp_run (h : r.Clocked stream retiming) (inputs : List Frame) (s : σ) {i n : Nat} {d : Call σ}
    {f : Frame} (place : (calls ends r inputs s)[i]? = some d) (handed : d.frames[n]? = some f) :
    f.pts = retiming.stamp (r.clock.start.or (firstStamp stream.layout (inputs.take (i + 1))))
      (r.clock.emitted + (((calls ends r inputs s).take i).flatMap Call.frames).length + n) := by
  induction inputs generalizing r s i with
  | nil => cases place
  | cons input inputs ih =>
    obtain ⟨_, clock, times⟩ := call_timed ends r input s
    rw [h.stream_eq] at clock times
    simp only [calls] at place ⊢
    rw [List.take_succ_cons, ← Clock.start_receive]
    cases i with
    | zero =>
      rw [List.getElem?_cons_zero, Option.some.injEq] at place
      subst place
      have stamped := congrArg (·[n]?) times
      obtain ⟨inside, _⟩ := List.getElem?_eq_some_iff.mp handed
      simp only [List.getElem?_map, handed, List.getElem?_range inside, Option.map_some, Option.some.injEq] at stamped
      rw [stamped, Clock.nextStamp, Clock.base]
      simp only [Clock.ahead, Clock.emitted_receive, Clock.retiming_receive, h.retiming_eq]
      simp [Retiming.stamp, firstStamp]
    | succ i =>
      rw [List.getElem?_cons_succ] at place
      rw [ih (h.call ends input s) _ place, clock, List.take_succ_cons, List.flatMap_cons, List.length_append]
      simp only [Clock.ahead, Clock.emitted_receive]
      rw [Nat.add_assoc r.clock.emitted]

def Anew (options : Options) (stream : InputStream) (r : Restorer) : Prop :=
  r.Started options stream ∨ ∃ q, Reached options stream q ∧ r = q.rewind

theorem Anew.serves (anew : r.Anew options stream) (accepted : options.cadence = .ok c)
    (derived : (Retiming.derive stream.pace c.ratio).value = .ok retiming) :
    ∃ m, Serves options stream c retiming r m ∧ r.clock.start = none ∧ r.clock.emitted = 0 := by
  rcases anew with started | ⟨q, reached, rfl⟩
  · obtain ⟨serves, clock, _⟩ := started.new accepted derived
    rw [clock]
    exact ⟨_, serves, rfl, rfl⟩
  · obtain ⟨retiming', m, derived', serves⟩ := reached.serves accepted
    obtain rfl : retiming' = retiming := Except.ok.inj (derived'.symm.trans derived)
    exact ⟨_, serves.rewind accepted, rfl, rfl⟩

/-- What is known of the frame that goes out after `k` others when the clock started at `start`. -/
structure OnTime (t : Retiming) (start : Option Int) (k : Nat) (pts : Timestamp) : Prop where
  stamped : pts = .ofTicks (Signed64.saturate (start.getD 0 + nearest (k * t.frameTicks.value))) t.output.base
  ticks : pts.ticks = some (Signed64.saturate (start.getD 0 + nearest (k * t.frameTicks.value)))
  close : Signed64.Fits (start.getD 0 + nearest (k * t.frameTicks.value)) →
    |(pts.rawTicks : ℚ) - (start.getD 0 + k * t.frameTicks.value)| ≤ 1 / 2

theorem OnTime.of_stamped {t : Retiming} {start : Option Int} {k : Nat} {pts : Timestamp}
    (positive : 0 < t.frameTicks.value) (above : ∀ b, start = some b → Signed64.least < b)
    (stamped : pts = .ofTicks (Signed64.saturate (start.getD 0 + nearest (k * t.frameTicks.value))) t.output.base) :
    OnTime t start k pts := by
  have forward : 0 ≤ nearest (k * t.frameTicks.value) := nearest_nonneg (by positivity)
  have defined : Signed64.least < start.getD 0 + nearest (k * t.frameTicks.value) := by
    cases start with
    | none => exact lt_of_lt_of_le (by decide) (Int.add_nonneg (le_refl 0) forward)
    | some b => exact lt_of_lt_of_le (above b rfl) (Int.le_add_of_nonneg_right forward)
  have ticks : pts.ticks = some (Signed64.saturate (start.getD 0 + nearest (k * t.frameTicks.value))) := by
    rw [stamped, Timestamp.ofTicks_saturate defined]
  refine ⟨stamped, ticks, ?_⟩
  intro room
  rw [Timestamp.rawTicks, ticks, Signed64.saturate_of_fits room, Option.getD_some, Int.cast_add, add_sub_add_left_eq_sub]
  exact abs_nearest_sub_le _

theorem Clocked.onTime (h : r.Clocked stream retiming) (start : r.clock.start = none) (emitted : r.clock.emitted = 0)
    (positive : retiming.frameTicks.Positive) {inputs : List Frame} (proper : ∀ f ∈ inputs, f.pts.Proper) {s : σ}
    {i n : Nat} {d : Call σ} {f : Frame} (place : (calls ends r inputs s)[i]? = some d)
    (handed : d.frames[n]? = some f)
    (reaches : retiming.Reaches ((((calls ends r inputs s).take i).flatMap Call.frames).length + n)) :
    OnTime retiming (firstStamp stream.layout (inputs.take (i + 1)))
      ((((calls ends r inputs s).take i).flatMap Call.frames).length + n) f.pts := by
  have stamped := h.stamp_run inputs s place handed
  rw [start, emitted, Option.none_or, Nat.zero_add, Retiming.stamp_eq positive.den reaches] at stamped
  exact .of_stamped positive.value_pos
    (fun b => firstStamp_proper fun f member => proper f (List.mem_of_mem_take member)) stamped

/-- Over a whole run, whatever fails in it, the frame that goes out after `k` others carries the first defined
timestamp so far moved by `k` frames, rounded once and clamped; while that timestamp does not come late as a
negative one, the timestamps never go back. -/
theorem run_keeps_time (accepted : options.cadence = .ok c)
    (derived : (Retiming.derive stream.pace c.ratio).value = .ok retiming) (renewed : Renewed options stream r)
    (positive : retiming.frameTicks.Positive) {inputs : List Frame} (proper : ∀ f ∈ inputs, f.pts.Proper) (s : σ) :
    (∀ i d n f, (calls ends r inputs s)[i]? = some d → d.frames[n]? = some f →
        let k := (((calls ends r inputs s).take i).flatMap Call.frames).length + n
        retiming.Reaches k → OnTime retiming (firstStamp stream.layout (inputs.take (i + 1))) k f.pts) ∧
      (Steady stream.layout inputs (calls ends r inputs s) →
        ∀ k k' f f', ((calls ends r inputs s).flatMap Call.frames)[k]? = some f →
          ((calls ends r inputs s).flatMap Call.frames)[k']? = some f' → k ≤ k' → retiming.Reaches k' →
            f.pts.rawTicks ≤ f'.pts.rawTicks) := by
  obtain ⟨clocked, start, emitted⟩ := renewed.clocked accepted derived
  refine ⟨fun i d n f place handed => clocked.onTime start emitted positive proper place handed, ?_⟩
  intro steady k k' f f' inside inside' order reaches'
  have reaches := reaches'.of_le positive.value_pos order
  have later : (k : ℚ) * retiming.frameTicks.value ≤ k' * retiming.frameTicks.value :=
    mul_le_mul_of_nonneg_right (Nat.cast_le.mpr order) positive.value_pos.le
  obtain ⟨i, d, n, place, handed, rfl⟩ := getElem?_flatMap inside
  obtain ⟨i', d', n', place', handed', rfl⟩ := getElem?_flatMap inside'
  have ordered := outer_le_of_place_le place' handed' order
  have first := (clocked.onTime start emitted positive proper place handed reaches).ticks
  have second := (clocked.onTime start emitted positive proper place' handed' reaches').ticks
  rw [Timestamp.rawTicks, Timestamp.rawTicks, first, second, Option.getD_some, Option.getD_some]
  apply Signed64.saturate_mono
  apply Int.add_le_add
  · exact steady.start_mono place (List.ne_nil_of_mem (List.mem_of_getElem? handed)) ordered
  · exact nearest_mono later

end Restorer

def Frame.timed (ticks : Option Int) : Frame :=
  { Frame.ofPicture (.column 1 2) with pts := ⟨ticks, .milliseconds⟩ }

def InputStream.timedColumns : InputStream := ⟨.column, ⟨⟨30, 1⟩, .milliseconds⟩⟩

def Retiming.timedColumns : Retiming := ⟨⟨⟨30, 1⟩, .milliseconds⟩, ⟨⟨24, 1⟩, ⟨⟨1, 800⟩⟩⟩, ⟨100, 3⟩⟩

theorem Retiming.timedColumns_reaches {k : Nat} (few : k ≤ 10) : timedColumns.Reaches k := by
  have unit : timedColumns.frameTicks.value = 100 / 3 := by norm_num [timedColumns, Rational.value]
  have small : (k : ℚ) ≤ 10 := by exact_mod_cast few
  refine ⟨⟨by simp only [Signed64.least]; omega, by simp only [Signed64.greatest]; omega⟩, ?_⟩
  rw [unit]
  exact fits_nearest (by positivity) (by norm_num [Signed64.greatest]; linarith)

namespace Restorer

theorem length_frames_of_stamps {σ : Type} {done : List (Call σ)} {stamps : List (List (Option Int))}
    (times : done.map (·.frames.map (·.pts.ticks)) = stamps) :
    (done.flatMap Call.frames).length = (stamps.map List.length).sum := by
  rw [← times, List.length_flatMap, List.map_map]
  simp only [Function.comp_def, List.length_map]

theorem run_keeps_time_columns :
    ∃ r, (start (Pool.supply .boundless) .default .timedColumns Pool.columns).result = .ok r ∧
      let inputs := [.timed none, .timed (some 40), .blank ⟨3, 2, .gray8⟩ .mpeg, .timed (some 7), .timed none,
        .timed none, .timed none]
      let done := calls Endpoints.fickle r inputs 0
      done.map (·.frames.map (·.pts.ticks)) = [[some 0], [], [], [], [some 73], [], [some 107]] ∧
        (∀ i d n f, done[i]? = some d → d.frames[n]? = some f →
          OnTime .timedColumns (firstStamp .column (inputs.take (i + 1)))
            (((done.take i).flatMap Call.frames).length + n) f.pts) ∧
        ∀ (k k' : Nat) (f f' : Frame), (done.flatMap Call.frames)[k]? = some f →
          (done.flatMap Call.frames)[k']? = some f' → k ≤ k' → f.pts.rawTicks ≤ f'.pts.rawTicks := by
  obtain ⟨r, built, times⟩ :
      ∃ r, (start (Pool.supply .boundless) .default .timedColumns Pool.columns).result = .ok r ∧
        (calls Endpoints.fickle r [.timed none, .timed (some 40), .blank ⟨3, 2, .gray8⟩ .mpeg, .timed (some 7),
          .timed none, .timed none, .timed none] 0).map (·.frames.map (·.pts.ticks)) =
          [[some 0], [], [], [], [some 73], [], [some 107]] := ⟨_, rfl, by decide +kernel⟩
  have opened : r.Opened .default .timedColumns := ⟨_, Pool.supply .boundless, Pool.columns, built⟩
  have accepted : Options.default.cadence = .ok ⟨[2, 3], 0, 0, 0, 0, ⟨5, 4⟩, 0⟩ := rfl
  have derived : (Retiming.derive InputStream.timedColumns.pace ⟨5, 4⟩).value = .ok .timedColumns := rfl
  refine ⟨r, built, ?_⟩
  intro inputs done
  have proper : ∀ f ∈ inputs, f.pts.Proper := by
    simp [inputs, Frame.timed, Frame.blank, Timestamp.undefined, Timestamp.Proper, Signed64.least, Signed64.greatest]
  have three : (done.flatMap Call.frames).length = 3 := length_frames_of_stamps times
  have steady : Steady .column inputs done := by
    intro b known
    have first : firstStamp .column inputs = some 40 := rfl
    rw [first] at known
    cases known
    exact .inl (by decide)
  obtain ⟨onTime, forward⟩ := run_keeps_time accepted derived (.inl opened) ⟨by decide, by decide⟩ proper 0
  refine ⟨times, ?_, ?_⟩
  · intro i d n f place handed
    have within := place_lt_length place handed
    exact onTime i d n f place handed (Retiming.timedColumns_reaches (within.le.trans (by omega)))
  · intro k k' f f' inside inside' order
    obtain ⟨within, _⟩ := List.getElem?_eq_some_iff.mp inside'
    exact forward steady k k' f f' inside inside' order (Retiming.timedColumns_reaches (by omega))

end Restorer

end InverseTelecine
