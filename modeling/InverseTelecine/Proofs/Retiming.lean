import InverseTelecine.Proofs.Number.LowestTerms
import InverseTelecine.Retiming

namespace InverseTelecine

namespace Retiming

/-- What was checked and computed before `derive` gave `t`. -/
structure Derived (input : Pace) (ratio : Rational) (t : Retiming) : Prop where
  rate_pos : 0 < input.rate.num
  tick_pos : 0 < input.base.tick.num
  ratio_pos : 0 < ratio.num
  output : t.output = ⟨input.rate * ⟨ratio.den, ratio.num⟩, ⟨input.base.tick * ratio⟩⟩
  frameTicks : (t.output.rate * t.output.base.tick).inverse = .ok t.frameTicks

variable {input : Pace} {ratio : Rational} {t : Retiming}

theorem requirePositive_eq_ok {input : Pace} {ratio : Rational} (h : requirePositive input ratio = .ok ()) :
    0 < input.rate.num ∧ 0 < input.base.tick.num ∧ 0 < ratio.num := by
  unfold requirePositive at h
  split at h
  · cases h
  next rate =>
    split at h
    · cases h
    next tick =>
      split at h
      · cases h
      next positive =>
        simp only [Rational.isPositive, decide_eq_true_eq, not_not] at rate tick positive
        exact ⟨rate, tick, positive⟩

theorem derive_eq_ok (h : (derive input ratio).value = .ok t) : Derived input ratio t := by
  unfold derive at h
  split at h
  · cases h
  · cases h
  next inverse checked reciprocal =>
    obtain ⟨rate, tick, positive⟩ := requirePositive_eq_ok checked
    have turned : inverse = ⟨ratio.den, ratio.num⟩ :=
      Except.ok.inj (reciprocal.symm.trans (Rational.inverse_of_pos positive))
    simp only at h
    split at h
    · cases h
    next frameTicks last =>
      cases h
      exact ⟨rate, tick, positive, by rw [turned], last⟩

namespace Derived

theorem den_pos (h : Derived input ratio t) : 0 < t.frameTicks.den := by
  obtain ⟨nonzero, same⟩ := Rational.inverse_eq_ok h.frameTicks
  rw [same]
  exact Rational.withSign_den_pos nonzero

/-- No product of the derivation is cut to its low bits. -/
structure Exact (input : Pace) (ratio : Rational) (t : Retiming) : Prop where
  rate_den : 0 < input.rate.den
  tick_den : 0 < input.base.tick.den
  rate : Rational.MulFits input.rate ⟨ratio.den, ratio.num⟩
  tick : Rational.MulFits input.base.tick ratio
  output : Rational.MulFits t.output.rate t.output.base.tick

theorem tick_eq (h : Derived input ratio t) (exact : Exact input ratio t) (den : 0 < ratio.den) :
    t.output.base.tick.value = input.base.tick.value * ratio.value := by
  rw [h.output]
  exact exact.tick.value_mul exact.tick_den den

theorem outputTick_pos (h : Derived input ratio t) (exact : Exact input ratio t) (den : 0 < ratio.den) :
    0 < t.output.base.tick.value := by
  rw [h.tick_eq exact den]
  exact mul_pos (Rational.value_pos h.tick_pos exact.tick_den) (Rational.value_pos h.ratio_pos den)

theorem rate_eq (h : Derived input ratio t) (exact : Exact input ratio t) :
    t.output.rate.value = input.rate.value / ratio.value := by
  rw [h.output]
  simp only
  rw [exact.rate.value_mul exact.rate_den h.ratio_pos, div_eq_mul_inv]
  congr 1
  rw [Rational.value, Rational.value, inv_div]

theorem frameTicks_eq (h : Derived input ratio t) (exact : Exact input ratio t) (den : 0 < ratio.den) :
    t.frameTicks.value = (t.output.rate.value * t.output.base.tick.value)⁻¹ := by
  have rateDen : 0 < t.output.rate.den := by
    rw [h.output]
    exact exact.rate.den_pos exact.rate_den h.ratio_pos
  have tickDen : 0 < t.output.base.tick.den := by
    rw [h.output]
    exact exact.tick.den_pos exact.tick_den den
  rw [Rational.value_inverse h.frameTicks, exact.output.value_mul rateDen tickDen]

theorem frameTicks_pos (h : Derived input ratio t) (exact : Exact input ratio t) (den : 0 < ratio.den) :
    0 < t.frameTicks.value := by
  rw [h.frameTicks_eq exact den, h.rate_eq exact]
  have ratePos := Rational.value_pos h.rate_pos exact.rate_den
  have tickPos := h.outputTick_pos exact den
  have ratioPos := Rational.value_pos h.ratio_pos den
  positivity

theorem frameTicks_positive (h : Derived input ratio t) (exact : Exact input ratio t) (den : 0 < ratio.den) :
    t.frameTicks.Positive :=
  Rational.positive_of_value_pos h.den_pos (h.frameTicks_pos exact den)

theorem frames_of_ticks (h : Derived input ratio t) (exact : Exact input ratio t) (den : 0 < ratio.den) :
    input.rate.value * t.output.base.tick.value * t.frameTicks.value = ratio.value := by
  have ratePos := Rational.value_pos h.rate_pos exact.rate_den
  have tickPos := h.outputTick_pos exact den
  have ratioPos := Rational.value_pos h.ratio_pos den
  rw [h.frameTicks_eq exact den, h.rate_eq exact]
  field_simp

end Derived

end Retiming

end InverseTelecine
