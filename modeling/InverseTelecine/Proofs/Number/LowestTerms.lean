import InverseTelecine.Proofs.Number.Rounding
import Mathlib.Data.Rat.Cast.CharZero
import Mathlib.Data.Rat.Lemmas

namespace InverseTelecine

namespace Rational

variable {a b : Rational}

theorem value_withSign (num den : ℤ) : (withSign num den).value = num / den := by
  unfold withSign
  split
  · rw [value, Int.cast_neg, Int.cast_neg, neg_div_neg_eq]
  · rfl

theorem lowest_den_pos (positive : 0 < a.den) : 0 < a.lowest.den := by
  unfold lowest
  split
  · decide
  · have divisor : (0 : ℤ) < a.num.gcd a.den := Int.natCast_pos.mpr (Int.gcd_pos_of_ne_zero_right _ positive.ne')
    exact Int.ediv_pos_of_pos_of_dvd positive divisor.le (Int.gcd_dvd_right a.num a.den)

theorem value_lowest (positive : 0 < a.den) : a.lowest.value = a.value := by
  unfold lowest
  split
  next zero => simp [value, Rational.zero, zero]
  next =>
    have divisor : ((a.num.gcd a.den : ℕ) : ℚ) ≠ 0 :=
      Nat.cast_ne_zero.mpr (Int.gcd_pos_of_ne_zero_right _ positive.ne').ne'
    rw [value, value, Int.cast_div (Int.gcd_dvd_left a.num a.den) (by exact_mod_cast divisor),
      Int.cast_div (Int.gcd_dvd_right a.num a.den) (by exact_mod_cast divisor), Int.cast_natCast,
      div_div_div_cancel_right₀ divisor]

/-- In lowest terms the exact product has 64-bit terms. -/
def MulFits (a b : Rational) : Prop :=
  let exact := (withSign (a.num * b.num) (a.den * b.den)).lowest
  Signed64.Fits exact.num ∧ Signed64.Fits exact.den

instance (a b : Rational) : Decidable (MulFits a b) := inferInstanceAs (Decidable (_ ∧ _))

theorem MulFits.mul_eq (h : MulFits a b) : a * b = (withSign (a.num * b.num) (a.den * b.den)).lowest := by
  rw [mul_def, ofExact]
  simp only [Signed64.truncate_of_fits h.1, Signed64.truncate_of_fits h.2]

theorem MulFits.den_pos (h : MulFits a b) (ha : 0 < a.den) (hb : 0 < b.den) : 0 < (a * b).den := by
  rw [h.mul_eq]
  exact lowest_den_pos (withSign_den_pos (Int.mul_pos ha hb).ne')

theorem MulFits.value_mul (h : MulFits a b) (ha : 0 < a.den) (hb : 0 < b.den) :
    (a * b).value = a.value * b.value := by
  rw [h.mul_eq, value_lowest (withSign_den_pos (Int.mul_pos ha hb).ne'), value_withSign, Int.cast_mul, Int.cast_mul,
    mul_div_mul_comm]
  rfl

theorem value_pos (num : 0 < a.num) (den : 0 < a.den) : 0 < a.value :=
  div_pos (Int.cast_pos.mpr num) (Int.cast_pos.mpr den)

/-- Both terms are positive, though perhaps not in lowest terms. -/
structure Positive (a : Rational) : Prop where
  num : 0 < a.num
  den : 0 < a.den

theorem Positive.value_pos (h : a.Positive) : 0 < a.value := Rational.value_pos h.num h.den

theorem positive_of_value_pos (den : 0 < a.den) (h : 0 < a.value) : a.Positive := by
  have terms : (0 : ℚ) < a.den := Int.cast_pos.mpr den
  exact ⟨Int.cast_pos.mp ((div_pos_iff_of_pos_right terms).mp h), den⟩

theorem inverse_eq_ok (h : a.inverse = .ok b) : a.num ≠ 0 ∧ b = withSign a.den a.num := by
  unfold inverse at h
  split at h
  · cases h
  next nonzero => exact ⟨nonzero, ((signed_eq_ok_iff _ _ _).mp h).2⟩

theorem inverse_of_pos (h : 0 < a.num) : a.inverse = .ok ⟨a.den, a.num⟩ := by
  rw [inverse, if_neg h.ne', signed, if_neg h.not_gt]

theorem value_inverse (h : a.inverse = .ok b) : b.value = a.value⁻¹ := by
  rw [(inverse_eq_ok h).2, value_withSign, value, inv_div]

def ofRat (q : ℚ) : Rational := ⟨q.num, q.den⟩

/-- Both terms of `q` in lowest terms are 64-bit numbers. -/
def Representable (q : ℚ) : Prop := Signed64.Fits q.num ∧ Signed64.Fits q.den

instance (q : ℚ) : Decidable (Representable q) := inferInstanceAs (Decidable (_ ∧ _))

/-- The terms of `a` are those of `q`, the denominator positive and no divisor left. -/
structure InLowestTerms (a : Rational) (q : ℚ) : Prop where
  positive : 0 < a.den
  coprime : Nat.Coprime a.num.natAbs a.den.natAbs
  value : a.value = q

theorem value_ofRat (q : ℚ) : (ofRat q).value = q := Rat.num_div_den q

theorem ofRat_inLowestTerms (q : ℚ) : (ofRat q).InLowestTerms q :=
  ⟨Int.natCast_pos.mpr q.den_pos, q.reduced, value_ofRat q⟩

theorem InLowestTerms.eq_ofRat {q : ℚ} (h : a.InLowestTerms q) : a = ofRat q := by
  have num_eq := Rat.num_div_eq_of_coprime h.positive h.coprime
  have den_eq := Rat.den_div_eq_of_coprime h.positive h.coprime
  rw [← h.value, ofRat, Rational.value, num_eq, den_eq]

theorem lowest_inLowestTerms (positive : 0 < a.den) : a.lowest.InLowestTerms a.value := by
  refine ⟨lowest_den_pos positive, ?_, value_lowest positive⟩
  unfold lowest
  split
  · decide
  · have divisor : 0 < Int.gcd a.num a.den := Int.gcd_pos_of_ne_zero_right _ positive.ne'
    exact Int.gcd_ediv_gcd_ediv_gcd divisor

theorem lowest_eq_ofRat (positive : 0 < a.den) : a.lowest = ofRat a.value := (lowest_inLowestTerms positive).eq_ofRat

theorem mul_eq_ofRat (ha : 0 < a.den) (hb : 0 < b.den) (fits : Representable (a.value * b.value)) :
    a * b = ofRat (a.value * b.value) := by
  have exact : (withSign (a.num * b.num) (a.den * b.den)).value = a.value * b.value := by
    rw [value_withSign, value, value, div_mul_div_comm, Int.cast_mul, Int.cast_mul]
  have lowest : (withSign (a.num * b.num) (a.den * b.den)).lowest = ofRat (a.value * b.value) := by
    rw [lowest_eq_ofRat (withSign_den_pos (Int.mul_pos ha hb).ne'), exact]
  rw [mul_def, ofExact, lowest]
  simp only [ofRat, Signed64.truncate_of_fits fits.1, Signed64.truncate_of_fits fits.2]

end Rational

end InverseTelecine
