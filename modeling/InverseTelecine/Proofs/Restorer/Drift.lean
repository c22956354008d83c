import InverseTelecine.Proofs.Restorer.Outputs
import InverseTelecine.Proofs.Restorer.Timestamps

namespace InverseTelecine

section fields

variable {digits : List Nat}

theorem slotStart_cyclic_between (filled : digits ≠ []) (positive : ∀ d ∈ digits, 0 < d) (j : Nat) :
    j * Cadence.fieldCount digits < digits.length * (slotStart (cyclic digits) j + Cadence.fieldCount digits) ∧
      digits.length * slotStart (cyclic digits) j < (j + digits.length) * Cadence.fieldCount digits := by
  have inside := Nat.mod_lt j (List.length_pos_of_ne_nil filled)
  have short : slotStart (cyclic digits) (j % digits.length) < Cadence.fieldCount digits := by
    rw [← slotStart_cyclic_length]
    exact slotStart_lt (fun i => positive _ (cyclic_mem filled i)) inside
  -- Whole cycles count alike on both sides; what is left is the part of the cycle begun.
  have turned := slotStart_cyclic_turns digits (j / digits.length) (j % digits.length)
  rw [Nat.div_add_mod] at turned
  have parts := Nat.div_add_mod j digits.length
  generalize Cadence.fieldCount digits = cycle at short turned ⊢
  generalize slotStart (cyclic digits) (j % digits.length) = part at short turned
  generalize digits.length = length at *
  generalize j % length = rest at *
  generalize j / length = turns at *
  subst parts
  rw [turned]
  constructor
  · have low : rest * cycle < length * cycle := Nat.mul_lt_mul_of_pos_right inside (by omega)
    nlinarith
  · have high : length * part < length * cycle := Nat.mul_lt_mul_of_pos_left short (by omega)
    nlinarith

theorem abs_evenly_sub_lt (filled : digits ≠ []) (positive : ∀ d ∈ digits, 0 < d) (j : Nat) :
    |(j * Cadence.fieldCount digits / digits.length : ℚ) - slotStart (cyclic digits) j| <
      Cadence.fieldCount digits := by
  have length : (0 : ℚ) < digits.length := Nat.cast_pos.mpr (List.length_pos_of_ne_nil filled)
  obtain ⟨low, high⟩ := slotStart_cyclic_between filled positive j
  have low : (j * Cadence.fieldCount digits : ℚ) <
      digits.length * (slotStart (cyclic digits) j + Cadence.fieldCount digits) := by exact_mod_cast low
  have high : (digits.length * slotStart (cyclic digits) j : ℚ) <
      (j + digits.length) * Cadence.fieldCount digits := by exact_mod_cast high
  rw [abs_lt, lt_sub_iff_add_lt, sub_lt_iff_lt_add, lt_div_iff₀ length, div_lt_iff₀ length]
  constructor <;> linarith

theorem evenly_eq (filled : digits ≠ []) {j : Nat} (whole : digits.length ∣ j) :
    (j * Cadence.fieldCount digits / digits.length : ℚ) = slotStart (cyclic digits) j := by
  have length : (digits.length : ℚ) ≠ 0 := Nat.cast_ne_zero.mpr (List.length_pos_of_ne_nil filled).ne'
  obtain ⟨turns, rfl⟩ := whole
  rw [slotStart_cyclic_whole]
  push_cast
  field_simp

end fields

/-- The ticks of an output, at two fields to an input frame, are the fields that the ratio gives each output, up to
the rounding. -/
theorem Retiming.Derived.abs_fields_sub_le {input : Pace} {ratio : Rational} {t : Retiming}
    (h : Derived input ratio t) (exact : Derived.Exact input ratio t) (den : 0 < ratio.den) (j : Nat) :
    |2 * (input.rate.value * t.output.base.tick.value) * nearest (j * t.frameTicks.value) - 2 * j * ratio.value| ≤
      input.rate.value * t.output.base.tick.value := by
  have unit := h.frames_of_ticks exact den
  have positive := mul_pos (Rational.value_pos h.rate_pos exact.rate_den) (h.outputTick_pos exact den)
  have rounding := abs_nearest_sub_le (j * t.frameTicks.value)
  generalize input.rate.value * t.output.base.tick.value = scale at *
  rw [← unit]
  calc |2 * scale * nearest (j * t.frameTicks.value) - 2 * j * (scale * t.frameTicks.value)|
      = |2 * scale * (nearest (j * t.frameTicks.value) - j * t.frameTicks.value)| := by ring_nf
    _ = 2 * scale * |(nearest (j * t.frameTicks.value) : ℚ) - j * t.frameTicks.value| := by
        rw [abs_mul, abs_of_pos (by linarith)]
    _ ≤ 2 * scale * (1 / 2) := mul_le_mul_of_nonneg_left rounding (by linarith)
    _ = scale := by ring

section drift

variable {digits : List Nat} {input : Pace} {t : Retiming}
  (h : Retiming.Derived input ⟨Cadence.fieldCount digits, 2 * digits.length⟩ t)
  (exact : Retiming.Derived.Exact input ⟨Cadence.fieldCount digits, 2 * digits.length⟩ t) (filled : digits ≠ [])
include h exact filled

theorem abs_evenly_fields_le (j : Nat) :
    |2 * (input.rate.value * t.output.base.tick.value) * nearest (j * t.frameTicks.value) -
        j * Cadence.fieldCount digits / digits.length| ≤ input.rate.value * t.output.base.tick.value := by
  have length : 0 < digits.length := List.length_pos_of_ne_nil filled
  have rounding := h.abs_fields_sub_le exact (by simp only; omega) j
  have evenly : 2 * j * Rational.value ⟨Cadence.fieldCount digits, 2 * digits.length⟩ =
      (j * Cadence.fieldCount digits / digits.length : ℚ) := by
    rw [Rational.value]
    push_cast
    field_simp
  rwa [evenly] at rounding

theorem abs_drift_lt (positive : ∀ d ∈ digits, 0 < d) (j : Nat) :
    |2 * (input.rate.value * t.output.base.tick.value) * nearest (j * t.frameTicks.value) -
        slotStart (cyclic digits) j| <
      Cadence.fieldCount digits + input.rate.value * t.output.base.tick.value := by
  have rounding := abs_evenly_fields_le h exact filled j
  have layout := abs_evenly_sub_lt filled positive j
  have apart := abs_sub_le
    (2 * (input.rate.value * t.output.base.tick.value) * nearest (j * t.frameTicks.value))
    (j * Cadence.fieldCount digits / digits.length : ℚ) (slotStart (cyclic digits) j)
  linarith

theorem abs_drift_le_of_dvd {j : Nat} (whole : digits.length ∣ j) :
    |2 * (input.rate.value * t.output.base.tick.value) * nearest (j * t.frameTicks.value) -
        slotStart (cyclic digits) j| ≤ input.rate.value * t.output.base.tick.value := by
  rw [← evenly_eq filled whole]
  exact abs_evenly_fields_le h exact filled j

end drift

theorem Cadence.cutFields_zero {digits : List Nat} (positive : ∀ d ∈ digits, 0 < d) : cutFields digits 0 = cyclic digits := by
  funext j
  rw [cutFields, phaseAt, if_pos rfl, slotFields, if_pos rfl, nonzeroFrom_of_pos positive]

namespace Restorer

variable {σ : Type} {ends : Endpoints σ} {options : Options} {stream : InputStream} {c : Cadence}
  {retiming : Retiming} {r : Restorer} {m : RowRouter}

theorem OnTime.pts_eq {k : Nat} {pts : Timestamp} {b : Int} (h : OnTime retiming (some b) k pts)
    (room : Signed64.Fits (b + nearest (k * retiming.frameTicks.value))) :
    pts = ⟨some (b + nearest (k * retiming.frameTicks.value)), retiming.output.base⟩ := by
  have ticks := h.ticks
  rw [Option.getD_some, Signed64.saturate_of_fits room] at ticks
  have base : pts.base = retiming.output.base := by rw [h.stamped]; rfl
  cases pts
  cases ticks
  cases base
  rfl

theorem firstStamp_take_succ {l : Layout} {first : Frame} (own : first.layout = l) {b : Int}
    (known : first.pts.ticks = some b) (inputs : List Frame) (i : Nat) :
    firstStamp l ((first :: inputs).take (i + 1)) = some b := by
  rw [List.take_succ_cons, firstStamp_cons, if_pos own, known]
  rfl

theorem Clocked.pts_run (clocked : r.Clocked stream retiming) (start : r.clock.start = none)
    (emitted : r.clock.emitted = 0) (positive : retiming.frameTicks.Positive)
    {first : Frame} {inputs : List Frame} (fits : ∀ f ∈ first :: inputs, f.picture.Fits stream.layout)
    (proper : ∀ f ∈ first :: inputs, f.pts.Proper) {b : Int} (known : first.pts.ticks = some b) {s : σ} {k : Nat}
    {f : Frame} (place : ((calls ends r (first :: inputs) s).flatMap Call.frames)[k]? = some f)
    (reaches : retiming.Reaches k) (close : Signed64.Fits (b + nearest (k * retiming.frameTicks.value))) :
    f.pts = ⟨some (b + nearest (k * retiming.frameTicks.value)), retiming.output.base⟩ := by
  obtain ⟨i, d, n, call, handed, here⟩ := getElem?_flatMap place
  have onTime := clocked.onTime start emitted positive proper call handed (here ▸ reaches)
  rw [firstStamp_take_succ (fits first List.mem_cons_self).layout known, ← here] at onTime
  exact onTime.pts_eq close

/-- Nothing drifts apart in a run that nothing disturbs: the frame of slot `j` is never a cycle of fields and half
a tick away from where the slot starts, and half a tick at most when `j` cycles have gone by. -/
theorem run_does_not_drift (accepted : options.cadence = .ok c) (positive : ∀ d ∈ c.digits, 1 ≤ d)
    (uncut : options.start = 0) (derived : (Retiming.derive stream.pace c.ratio).value = .ok retiming)
    (exact : Retiming.Derived.Exact stream.pace c.ratio retiming) (started : r.Started options stream)
    {first : Frame} {inputs : List Frame} (fits : ∀ f ∈ first :: inputs, f.picture.Fits stream.layout)
    (proper : ∀ f ∈ first :: inputs, f.pts.Proper) {b : Int} (known : first.pts.ticks = some b) (s : σ)
    (quiet : ∀ d ∈ calls ends r (first :: inputs) s, d.Undisturbed stream.layout)
    (room : ∀ j < ((calls ends r (first :: inputs) s).flatMap Call.frames).length,
      retiming.Reaches j ∧ Signed64.Fits (b + nearest (j * retiming.frameTicks.value))) :
    let frames := (calls ends r (first :: inputs) s).flatMap Call.frames
    let scale := stream.pace.rate.value * retiming.output.base.tick.value
    frames.map (·.picture.visible) =
        (List.range frames.length).map (slotShown options.first (first :: inputs) (cyclic c.digits)) ∧
      ∃ ticks : Nat → Int, (∀ j (f : Frame), frames[j]? = some f → f.pts = ⟨some (ticks j), retiming.output.base⟩) ∧
        ∀ j < frames.length,
          |2 * scale * ((ticks j : ℚ) - ticks 0) - slotStart (cyclic c.digits) j| <
              Cadence.fieldCount c.digits + scale ∧
            (c.digits.length ∣ j →
              |2 * scale * ((ticks j : ℚ) - ticks 0) - slotStart (cyclic c.digits) j| ≤ scale) := by
  intro frames scale
  obtain ⟨clocked, start, emitted⟩ := Renewed.clocked (.inl started.opened) accepted derived
  have filled := Cadence.ne_nil_of_lt (Options.cadence_eq_ok accepted).inside
  have ratio : c.ratio = ⟨Cadence.fieldCount c.digits, 2 * c.digits.length⟩ := by
    rw [Options.cadence_eq_ofDigits accepted]
    rfl
  rw [ratio] at derived exact
  have derivation := Retiming.derive_eq_ok derived
  have length : 0 < c.digits.length := List.length_pos_of_ne_nil filled
  have unit := derivation.frameTicks_positive exact (by simp only; omega)
  refine ⟨?_, fun j => b + nearest (j * retiming.frameTicks.value), ?_, ?_⟩
  · have shown := started.shown accepted (getLast?_of_pos positive) fits s quiet
    rw [uncut, Cadence.cutFields_zero positive] at shown
    have same : frames.map (·.picture.visible) = (calls ends r (first :: inputs) s).flatMap Call.shown :=
      List.map_flatMap
    have count := congrArg List.length (same.trans shown)
    rw [List.length_map, List.length_map, List.length_range] at count
    rw [same, shown, ← count]
  · intro j f place
    obtain ⟨inside, _⟩ := List.getElem?_eq_some_iff.mp place
    obtain ⟨reaches, close⟩ := room j inside
    exact clocked.pts_run start emitted unit fits proper known place reaches close
  · intro j _
    have origin : nearest ((0 : ℕ) * retiming.frameTicks.value) = 0 := by
      rw [Nat.cast_zero, zero_mul]
      exact nearest_intCast 0
    simp only [origin, Int.cast_add, add_zero, add_sub_cancel_left]
    exact ⟨abs_drift_lt derivation exact filled positive j, abs_drift_le_of_dvd derivation exact filled⟩

theorem run_does_not_drift_columns :
    ∃ r, (start (Pool.supply .boundless) .default .timedColumns Pool.columns).result = .ok r ∧
      let inputs := [.timed (some 40), .timed none, .timed (some 7), .timed (some 7), .timed none]
      let done := calls (Pool.supply .boundless).collecting r inputs (Pool.columns, [])
      let frames := done.flatMap Call.frames
      let scale : ℚ := 30 * (1 / 800)
      done.map (·.frames.map (·.pts.ticks)) = [[some 40], [some 73], [], [some 107], [some 140]] ∧
        frames.map (·.picture.visible) =
          (List.range frames.length).map (slotShown .top inputs (cyclic [2, 3])) ∧
        ∃ ticks : Nat → Int, (∀ j (f : Frame), frames[j]? = some f → f.pts = ⟨some (ticks j), ⟨⟨1, 800⟩⟩⟩) ∧
          ∀ j < frames.length,
            |2 * scale * ((ticks j : ℚ) - ticks 0) - slotStart (cyclic [2, 3]) j| < 5 + scale ∧
              (2 ∣ j → |2 * scale * ((ticks j : ℚ) - ticks 0) - slotStart (cyclic [2, 3]) j| ≤ scale) := by
  obtain ⟨r, built, times⟩ :
      ∃ r, (start (Pool.supply .boundless) .default .timedColumns Pool.columns).result = .ok r ∧
        (calls (Pool.supply .boundless).collecting r
          [.timed (some 40), .timed none, .timed (some 7), .timed (some 7), .timed none]
          (Pool.columns, [])).map (·.frames.map (·.pts.ticks)) =
          [[some 40], [some 73], [], [some 107], [some 140]] := ⟨_, rfl, by decide +kernel⟩
  have started : r.Started .default .timedColumns :=
    reliable_start Pool.columns_reliable Pool.columns_open built
  have accepted : Options.default.cadence = .ok ⟨[2, 3], 0, 0, 0, 0, ⟨5, 4⟩, 0⟩ := rfl
  have derived : (Retiming.derive InputStream.timedColumns.pace ⟨5, 4⟩).value = .ok .timedColumns := rfl
  have exact : Retiming.Derived.Exact InputStream.timedColumns.pace ⟨5, 4⟩ .timedColumns :=
    ⟨by decide, by decide, by decide, by decide, by decide⟩
  refine ⟨r, built, ?_⟩
  intro inputs done frames scale
  have fits : ∀ f ∈ inputs, f.picture.Fits .column := by
    simp only [inputs, List.forall_mem_cons]
    exact ⟨Picture.column_fits 1 2, Picture.column_fits 1 2, Picture.column_fits 1 2, Picture.column_fits 1 2,
      Picture.column_fits 1 2, fun f member => by cases member⟩
  have proper : ∀ f ∈ inputs, f.pts.Proper := by
    simp [inputs, Frame.timed, Timestamp.Proper, Signed64.least, Signed64.greatest]
  have four : frames.length = 4 := length_frames_of_stamps times
  have room : ∀ j < frames.length, Retiming.timedColumns.Reaches j ∧
      Signed64.Fits (40 + nearest (j * Retiming.timedColumns.frameTicks.value)) := by
    intro j inside
    refine ⟨Retiming.timedColumns_reaches (by omega), ?_⟩
    have unit : Retiming.timedColumns.frameTicks.value = 100 / 3 := by
      norm_num [Retiming.timedColumns, Rational.value]
    have small : (j : ℚ) ≤ 4 := by exact_mod_cast inside.le.trans four.le
    rw [unit]
    have low : 0 ≤ nearest (j * (100 / 3)) := nearest_nonneg (by positivity)
    have high : nearest (j * (100 / 3)) ≤ 1000 := by
      rw [← nearest_intCast 1000]
      exact nearest_mono (by push_cast; linarith)
    simp only [Signed64.Fits, Signed64.least, Signed64.greatest]
    omega
  have tick : InputStream.timedColumns.pace.rate.value * Retiming.timedColumns.output.base.tick.value = scale := by
    norm_num [InputStream.timedColumns, Retiming.timedColumns, Rational.value, scale]
  have drift := run_does_not_drift accepted (by decide) rfl derived exact started fits proper rfl _
    (columns_undisturbed r inputs) room
  simp only [tick] at drift
  exact ⟨times, drift⟩

end Restorer

end InverseTelecine
