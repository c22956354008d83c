import InverseTelecine.Proofs.Restorer.Starting

namespace InverseTelecine

namespace Rational

variable {a b : Rational} {q : ℚ}

theorem ofRat_positive (positive : 0 < q) : (ofRat q).Positive :=
  ⟨Rat.num_pos.mpr positive, Int.natCast_pos.mpr q.den_pos⟩

theorem inverse_ofRat (positive : 0 < q) : (ofRat q).inverse = .ok (ofRat q⁻¹) := by
  have num := Rat.num_pos.mpr positive
  have turned : ofRat q⁻¹ = ⟨q.den, q.num⟩ := by
    rw [ofRat, Rat.num_inv, Rat.den_inv_of_ne_zero positive.ne', Int.sign_eq_one_of_pos num, one_mul,
      Int.natAbs_of_nonneg num.le]
  rw [inverse_of_pos num, turned]
  rfl

theorem perFrame_value {rate : Rational} (positive : rate.Positive) {base : TimeBase}
    (framed : TimeBase.perFrame rate = .ok base) : base.tick.value = rate.value⁻¹ := by
  rw [TimeBase.perFrame, inverse_of_pos positive.num] at framed
  obtain rfl : ⟨(⟨rate.den, rate.num⟩ : Rational).reduce⟩ = base := Except.ok.inj framed
  simp only [reduce]
  rw [value_lowest positive.num, value, value, inv_div]

end Rational

namespace Retiming

variable {input : Pace} {ratio : Rational}

theorem offset_of_whole {t : Retiming} (whole : t.frameTicks = ⟨1, 1⟩) {n : Nat} (bound : n < 2 ^ 63) :
    t.offset n = n := by
  have fits : Signed64.Fits n := by
    simp only [Signed64.Fits, Signed64.least, Signed64.greatest]
    omega
  have value : ((n : ℤ) : ℚ) * (⟨1, 1⟩ : Rational).value = ((n : ℤ) : ℚ) := by
    rw [Rational.value]
    simp
  rw [offset, whole, Signed64.truncate_of_fits fits, Rational.scale_eq_nearest Int.one_pos, value, nearest_intCast,
    Signed64.truncate_of_fits fits]

/-- Where the exact rate, tick and frames in a tick can be written with 64-bit terms, retiming gives them exactly and
in lowest terms, and the ratio has no influence on the ticks of a frame. -/
theorem derive_exact (rate : input.rate.Positive) (tick : input.base.tick.Positive) (film : ratio.Positive)
    (rateFits : Rational.Representable (input.rate.value / ratio.value))
    (tickFits : Rational.Representable (input.base.tick.value * ratio.value))
    (framesFit : Rational.Representable (input.rate.value * input.base.tick.value)) :
    ∃ t, (derive input ratio).value = .ok t ∧ t.input = input ∧
      t.output.rate = .ofRat (input.rate.value / ratio.value) ∧
      t.output.base.tick = .ofRat (input.base.tick.value * ratio.value) ∧
      t.frameTicks = .ofRat (1 / (input.rate.value * input.base.tick.value)) ∧
      t.output.rate.Positive ∧ t.output.base.tick.Positive ∧ t.frameTicks.Positive ∧
      t.output.rate.value * t.output.base.tick.value = input.rate.value * input.base.tick.value ∧
      t.output.rate * t.output.base.tick = input.rate * input.base.tick ∧
      (TimeBase.perFrame input.rate = .ok input.base →
        t.frameTicks = ⟨1, 1⟩ ∧ ∀ n < 2 ^ 63, t.offset n = n) := by
  have ratePos := rate.value_pos
  have tickPos := tick.value_pos
  have filmPos := film.value_pos
  have turned : (⟨ratio.den, ratio.num⟩ : Rational).value = ratio.value⁻¹ := by
    rw [Rational.value, Rational.value, inv_div]
  have newRate : input.rate * ⟨ratio.den, ratio.num⟩ = .ofRat (input.rate.value / ratio.value) := by
    rw [div_eq_mul_inv, ← turned] at rateFits ⊢
    exact Rational.mul_eq_ofRat rate.den film.num rateFits
  have newTick := Rational.mul_eq_ofRat tick.den film.den tickFits
  have newRatePos := Rational.ofRat_positive (div_pos ratePos filmPos)
  have newTickPos := Rational.ofRat_positive (mul_pos tickPos filmPos)
  -- The ratio divides the rate and multiplies the tick.
  have cancels : (input.rate.value / ratio.value) * (input.base.tick.value * ratio.value) =
      input.rate.value * input.base.tick.value := by
    field_simp
  have frames : Rational.ofRat (input.rate.value / ratio.value) * .ofRat (input.base.tick.value * ratio.value) =
      .ofRat (input.rate.value * input.base.tick.value) := by
    have product := Rational.mul_eq_ofRat newRatePos.den newTickPos.den
    rw [Rational.value_ofRat, Rational.value_ofRat, cancels] at product
    exact product framesFit
  have ticks : 0 < input.rate.value * input.base.tick.value := mul_pos ratePos tickPos
  have derived : (derive input ratio).value = .ok ⟨input, ⟨.ofRat (input.rate.value / ratio.value),
      ⟨.ofRat (input.base.tick.value * ratio.value)⟩⟩, .ofRat (input.rate.value * input.base.tick.value)⁻¹⟩ := by
    rw [derive_of_pos rate.num tick.num film.num, Pace.restored, newRate, newTick]
    simp only [frames, Rational.inverse_ofRat ticks]
  refine ⟨_, derived, rfl, rfl, rfl, by rw [one_div], newRatePos, newTickPos,
    Rational.ofRat_positive (inv_pos.mpr ticks), ?_, ?_, ?_⟩
  · rw [Rational.value_ofRat, Rational.value_ofRat, cancels]
  · rw [frames, Rational.mul_eq_ofRat rate.den tick.den framesFit]
  · intro framed
    have one : Rational.ofRat (input.rate.value * input.base.tick.value)⁻¹ = ⟨1, 1⟩ := by
      rw [Rational.perFrame_value rate framed, mul_inv_cancel₀ ratePos.ne', inv_one]
      rfl
    exact ⟨one, fun n bound => offset_of_whole one bound⟩

theorem derive_exact_broadcast :
    let input : Pace := ⟨⟨30000, 1001⟩, ⟨⟨1001, 30000⟩⟩⟩
    TimeBase.perFrame input.rate = .ok input.base ∧
      ∃ t, (derive input ⟨10, 8⟩).value = .ok t ∧ t.output.rate = ⟨24000, 1001⟩ ∧
        t.output.base.tick = ⟨1001, 24000⟩ ∧ t.frameTicks = ⟨1, 1⟩ ∧ ∀ n < 2 ^ 63, t.offset n = n := by
  intro input
  have framed : TimeBase.perFrame input.rate = .ok input.base := congrArg Except.ok (by decide +kernel)
  have rate : input.rate.Positive := ⟨by decide, by decide⟩
  have tick : input.base.tick.Positive := ⟨by decide, by decide⟩
  have film : (⟨10, 8⟩ : Rational).Positive := ⟨by decide, by decide⟩
  have rateValue : input.rate.value / (⟨10, 8⟩ : Rational).value = 24000 / 1001 := by
    norm_num [Rational.value, input]
  have tickValue : input.base.tick.value * (⟨10, 8⟩ : Rational).value = 1001 / 24000 := by
    norm_num [Rational.value, input]
  have framesValue : input.rate.value * input.base.tick.value = 1 := by
    norm_num [Rational.value, input]
  obtain ⟨t, derived, _, newRate, newTick, _, _, _, _, _, _, counted⟩ :=
    derive_exact rate tick film (by rw [rateValue]; decide +kernel) (by rw [tickValue]; decide +kernel)
      (by rw [framesValue]; decide +kernel)
  rw [rateValue] at newRate
  rw [tickValue] at newTick
  obtain ⟨one, offsets⟩ := counted framed
  exact ⟨framed, t, derived, newRate.trans (by decide +kernel), newTick.trans (by decide +kernel), one, offsets⟩

end Retiming

end InverseTelecine
