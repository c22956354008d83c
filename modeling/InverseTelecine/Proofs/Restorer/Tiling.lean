import InverseTelecine.Proofs.Restorer.Drift
import InverseTelecine.Proofs.Restorer.Starting

namespace InverseTelecine

/-- The frames fill the time from `low` to `high` in ticks of `base`, each starting where the one before it ends. -/
def Frame.Tile (base : TimeBase) : Int → List Frame → Int → Prop
  | low, [], high => low = high
  | low, f :: fs, high =>
    f.pts = ⟨some low, base⟩ ∧ f.duration.base = base ∧ Tile base (low + f.duration.ticks) fs high

theorem Frame.tile_of_stamped {base : TimeBase} {d low : Int} {frames : List Frame}
    (stamped : ∀ (k : Nat) (f : Frame), frames[k]? = some f → f.pts = ⟨some (low + k * d), base⟩)
    (lasts : ∀ f ∈ frames, f.duration = ⟨d, base⟩) : Tile base low frames (low + frames.length * d) := by
  induction frames generalizing low with
  | nil => simp [Tile]
  | cons f frames ih =>
    obtain ⟨here, later⟩ := List.forall_mem_cons.mp lasts
    have shifted : ∀ (k : Nat) (g : Frame), frames[k]? = some g → g.pts = ⟨some (low + d + k * d), base⟩ := by
      intro k g place
      rw [stamped (k + 1) g place]
      congr 2
      push_cast
      ring
    have rest := ih shifted later
    have ends : low + d + frames.length * d = low + (f :: frames).length * d := by
      rw [List.length_cons]
      push_cast
      ring
    refine ⟨?_, by rw [here], ?_⟩
    · simpa using stamped 0 f rfl
    · rwa [here, ← ends]

namespace Retiming

variable {input : Pace} {ratio : Rational} {t : Retiming} {d b : Int}

theorem offset_of_ticks (den : 0 < t.frameTicks.den) (unit : t.frameTicks.value = d) (k : Nat) :
    t.offset k = Signed64.truncate (k * d) := by
  rw [offset, Rational.scale_eq_nearest den, unit, ← Int.cast_mul, nearest_intCast]
  exact Int.bmod_mul_bmod

theorem nearest_ticks (unit : t.frameTicks.value = d) (k : Nat) : nearest (k * t.frameTicks.value) = k * d := by
  rw [unit, ← Int.cast_natCast, ← Int.cast_mul, nearest_intCast]

/-- An offset that leaves the 64-bit numbers comes back below all of them, and the sum is clamped. -/
theorem reaches_of_unclamped (den : 0 < t.frameTicks.den) (unit : t.frameTicks.value = d) (positive : 0 < d)
    {k : Nat} (start : Signed64.Fits b) (exact : Signed64.Fits (b + k * d))
    (unclamped : Signed64.Fits (b + t.offset k)) : t.Reaches k := by
  have grows : (k : ℤ) ≤ k * d := le_mul_of_one_le_right (Int.natCast_nonneg k) positive
  have inside : (k : ℤ) * d ≤ Signed64.greatest := by
    by_contra beyond
    rw [offset_of_ticks den unit, Signed64.truncate, Int.bmod_eq_emod] at unclamped
    simp only [Signed64.Fits, Signed64.least, Signed64.greatest] at start exact unclamped beyond
    generalize (k : ℤ) * d = ticks at *
    split at unclamped <;> omega
  have low : Signed64.least ≤ (k : ℤ) := le_trans (by decide) (Int.natCast_nonneg k)
  refine ⟨⟨low, grows.trans inside⟩, ?_⟩
  rw [nearest_ticks unit]
  exact ⟨low.trans grows, inside⟩

theorem Derived.frame_of_ticks (h : Derived input ratio t) (exact : Exact input ratio t) (den : 0 < ratio.den)
    (period : (d : ℚ) * input.base.tick.value = 1 / input.rate.value) :
    (d : ℚ) * t.output.base.tick.value = 1 / t.output.rate.value ∧ t.frameTicks.value = d := by
  have tick := h.outputTick_pos exact den
  have lasts : (d : ℚ) * t.output.base.tick.value = 1 / t.output.rate.value := by
    rw [h.tick_eq exact den, h.rate_eq exact, ← mul_assoc, period, one_div_div, one_div_mul_eq_div]
  refine ⟨lasts, ?_⟩
  rw [h.frameTicks_eq exact den, mul_inv, ← one_div, ← lasts]
  field_simp

end Retiming

namespace Restorer

variable {σ : Type} {ends : Endpoints σ} {options : Options} {stream : InputStream} {c : Cadence}
  {retiming : Retiming} {r : Restorer} {m : RowRouter}

theorem Serves.durations_call (h : Serves options stream c retiming r m) {input : Frame}
    (fits : input.picture.Fits stream.layout) (s : σ) (formed : (Restorer.call ends r input s).Formed) :
    ∀ f ∈ (Restorer.call ends r input s).frames, f.duration = ⟨input.duration.ticks, retiming.output.base⟩ := by
  obtain ⟨slots, answer, delivered⟩ := (h.call fits ends s).1
  intro f member
  have look := (delivered.looks formed).subset (List.mem_map_of_mem member)
  obtain ⟨rows, _, same⟩ := List.mem_map.mp look
  have duration := congrArg Look.duration same
  rw [← h.clock_base input.pts]
  exact duration.symm

theorem Serves.durations_run (h : Serves options stream c retiming r m) {inputs : List Frame}
    (fits : ∀ f ∈ inputs, f.picture.Fits stream.layout) (s : σ) (formed : ∀ d ∈ calls ends r inputs s, d.Formed) :
    ∀ f ∈ (calls ends r inputs s).flatMap Call.frames,
      ∃ input ∈ inputs, f.duration = ⟨input.duration.ticks, retiming.output.base⟩ := by
  induction inputs generalizing r m s with
  | nil =>
    intro f member
    cases member
  | cons input inputs ih =>
    simp only [calls, List.forall_mem_cons] at fits formed ⊢
    intro f member
    rw [List.flatMap_cons, List.mem_append] at member
    rcases member with here | later
    · exact ⟨input, List.mem_cons_self, h.durations_call fits.1 s formed.1 f here⟩
    · obtain ⟨source, inside, lasts⟩ := ih (h.call fits.1 ends s).2.1 fits.2 _ formed.2 f later
      exact ⟨source, List.mem_cons_of_mem input inside, lasts⟩

/-- Where inputs last one frame of their stream, outputs last one frame of theirs and tile the time from the first
timestamp on, as long as no timestamp has to be clamped: neither the exact one nor the sum that the clock makes. -/
theorem run_tiles (accepted : options.cadence = .ok c)
    (derived : (Retiming.derive stream.pace c.ratio).value = .ok retiming)
    (exact : Retiming.Derived.Exact stream.pace c.ratio retiming) (anew : r.Anew options stream)
    {first : Frame} {inputs : List Frame} (fits : ∀ f ∈ first :: inputs, f.picture.Fits stream.layout)
    (proper : ∀ f ∈ first :: inputs, f.pts.Proper) {b d : Int} (known : first.pts.ticks = some b)
    (lasts : ∀ f ∈ first :: inputs, f.duration = ⟨d, stream.pace.base⟩)
    (period : (d : ℚ) * stream.pace.base.tick.value = 1 / stream.pace.rate.value) (s : σ)
    (quiet : ∀ d ∈ calls ends r (first :: inputs) s, d.Undisturbed stream.layout)
    (unclamped : ∀ k < ((calls ends r (first :: inputs) s).flatMap Call.frames).length,
      Signed64.Fits (b + k * d) ∧ Signed64.Fits (b + retiming.offset k)) :
    let frames := (calls ends r (first :: inputs) s).flatMap Call.frames
    (∀ f ∈ frames, f.duration = ⟨d, retiming.output.base⟩) ∧
      (d : ℚ) * retiming.output.base.tick.value = 1 / retiming.output.rate.value ∧
      Frame.Tile retiming.output.base b frames (b + frames.length * d) := by
  intro frames
  obtain ⟨m, serves, start, emitted⟩ := anew.serves accepted derived
  have derivation := Retiming.derive_eq_ok derived
  have den := (Options.ratio_pos accepted).2
  obtain ⟨frame, unit⟩ := derivation.frame_of_ticks exact den period
  have forward := derivation.frameTicks_positive exact den
  have positive : 0 < d := by
    have ticks := forward.value_pos
    rw [unit] at ticks
    exact Int.cast_pos.mp ticks
  have durations : ∀ f ∈ frames, f.duration = ⟨d, retiming.output.base⟩ := by
    intro f member
    obtain ⟨input, inside, same⟩ := serves.durations_run fits s (fun c member => (quiet c member).formed) f member
    rw [same, lasts input inside]
  refine ⟨durations, frame, Frame.tile_of_stamped ?_ durations⟩
  intro k f place
  obtain ⟨inside, _⟩ := List.getElem?_eq_some_iff.mp place
  obtain ⟨close, sum⟩ := unclamped k inside
  have own : Signed64.Fits b := by
    obtain ⟨low, high⟩ := proper first List.mem_cons_self b known
    exact ⟨low.le, high⟩
  have reaches := Retiming.reaches_of_unclamped derivation.den_pos unit positive own close sum
  rw [← Retiming.nearest_ticks unit] at close ⊢
  exact serves.clocked.pts_run start emitted forward fits proper known place reaches close

end Restorer

def Frame.lasting (ticks : Option Int) : Frame :=
  { Frame.ofPicture (.column 1 2) with
    pts := ⟨ticks, .mpeg⟩
    duration := ⟨3000, .mpeg⟩ }

def InputStream.lastingColumns : InputStream := ⟨.column, ⟨⟨30, 1⟩, .mpeg⟩⟩

def Retiming.lastingColumns : Retiming := ⟨⟨⟨30, 1⟩, .mpeg⟩, ⟨⟨45, 2⟩, ⟨⟨1, 67500⟩⟩⟩, ⟨3000, 1⟩⟩

namespace Restorer

theorem run_tiles_columns :
    ∃ r, (start (Pool.supply .boundless) ⟨.top, "116", 0⟩ .lastingColumns Pool.columns).result = .ok r ∧
      let inputs := [.lasting (some 40), .lasting none, .lasting (some 7), .lasting (some 7), .lasting none]
      let done := calls (Pool.supply .boundless).collecting r inputs (Pool.columns, [])
      done.map (·.frames.length) = [1, 2, 0, 0, 1] ∧
        (∀ f ∈ done.flatMap Call.frames, f.duration = ⟨3000, ⟨⟨1, 67500⟩⟩⟩) ∧
        Frame.Tile ⟨⟨1, 67500⟩⟩ 40 (done.flatMap Call.frames) 12040 := by
  obtain ⟨r, built⟩ : ∃ r, (start (Pool.supply .boundless) ⟨.top, "116", 0⟩ .lastingColumns Pool.columns).result = .ok r :=
    ⟨_, rfl⟩
  have started : r.Started ⟨.top, "116", 0⟩ .lastingColumns :=
    reliable_start Pool.columns_reliable Pool.columns_open built
  have accepted : Options.cadence ⟨.top, "116", 0⟩ = .ok ⟨[1, 1, 6], 0, 0, 0, 0, ⟨8, 6⟩, 0⟩ := rfl
  have derived : (Retiming.derive InputStream.lastingColumns.pace ⟨8, 6⟩).value = .ok .lastingColumns := rfl
  have exact : Retiming.Derived.Exact InputStream.lastingColumns.pace ⟨8, 6⟩ .lastingColumns :=
    ⟨by decide, by decide, by decide, by decide, by decide⟩
  refine ⟨r, built, ?_⟩
  intro inputs done
  have fits : ∀ f ∈ inputs, f.picture.Fits .column := by
    simp only [inputs, List.forall_mem_cons]
    exact ⟨Picture.column_fits 1 2, Picture.column_fits 1 2, Picture.column_fits 1 2, Picture.column_fits 1 2,
      Picture.column_fits 1 2, fun f member => by cases member⟩
  have proper : ∀ f ∈ inputs, f.pts.Proper := by
    simp [inputs, Frame.lasting, Timestamp.Proper, Signed64.least, Signed64.greatest]
  have lasts : ∀ f ∈ inputs, f.duration = ⟨3000, .mpeg⟩ := by
    simp [inputs, Frame.lasting]
  have period : ((3000 : ℤ) : ℚ) * InputStream.lastingColumns.pace.base.tick.value =
      1 / InputStream.lastingColumns.pace.rate.value := by
    norm_num [InputStream.lastingColumns, TimeBase.mpeg, Rational.value]
  have quiet := columns_undisturbed r inputs
  have shown := (started.follows accepted).map_shown fits (Pool.columns, []) quiet
  have counts : done.map (·.frames.length) = [1, 2, 0, 0, 1] := by
    have lengths := congrArg (List.map List.length) shown
    rw [List.map_map] at lengths
    rw [← show _ = [1, 2, 0, 0, 1] from lengths]
    apply List.map_congr_left
    intro d _
    exact (List.length_map _).symm
  have four : (done.flatMap Call.frames).length = 4 := by
    rw [List.length_flatMap, counts]
    rfl
  have unclamped : ∀ k : ℕ, k < 4 →
      Signed64.Fits (40 + k * 3000) ∧ Signed64.Fits (40 + Retiming.lastingColumns.offset k) := by
    decide
  rw [← four] at unclamped
  obtain ⟨durations, _, tile⟩ := run_tiles accepted derived exact (.inl started) fits proper rfl lasts period _ quiet
    unclamped
  rw [four] at tile
  exact ⟨counts, durations, tile⟩

end Restorer

end InverseTelecine
