import InverseTelecine.Number.Rational
import Mathlib.Algebra.Order.Floor.Ring
import Mathlib.Data.Rat.Floor
import Mathlib.Tactic.FieldSimp
import Mathlib.Tactic.Linarith
import Mathlib.Tactic.NormNum

namespace InverseTelecine

namespace Signed64

theorem saturate_mono {x y : Int} (order : x ≤ y) : saturate x ≤ saturate y := by
  simp only [saturate, least, greatest]
  split_ifs <;> omega

theorem least_lt_saturate {x : Int} (above : least < x) : least < saturate x := by
  unfold saturate
  rw [if_neg (by omega)]
  split
  · decide
  · exact above

end Signed64

/-- The nearest integer, halves away from zero. -/
def nearest (q : ℚ) : ℤ := if 0 ≤ q then ⌊q + 1 / 2⌋ else ⌈q - 1 / 2⌉

section nearest

variable {q q' : ℚ}

theorem nearest_of_nonneg (h : 0 ≤ q) : nearest q = ⌊q + 1 / 2⌋ := if_pos h

theorem nearest_neg (q : ℚ) : nearest (-q) = -nearest q := by
  rcases lt_trichotomy q 0 with negative | rfl | positive
  · rw [nearest, nearest, if_pos (by linarith), if_neg (by linarith), ← Int.floor_neg]
    congr 1
    ring
  · norm_num [nearest]
  · rw [nearest, nearest, if_neg (by linarith), if_pos positive.le, ← Int.ceil_neg]
    congr 1
    ring

theorem nearest_nonneg (h : 0 ≤ q) : 0 ≤ nearest q := by
  rw [nearest_of_nonneg h, Int.floor_nonneg]
  linarith

theorem abs_nearest_sub_le (q : ℚ) : |(nearest q : ℚ) - q| ≤ 1 / 2 := by
  rw [abs_le, nearest]
  split
  · have low := Int.lt_floor_add_one (q + 1 / 2)
    have high := Int.floor_le (q + 1 / 2)
    constructor <;> linarith
  · have low := Int.le_ceil (q - 1 / 2)
    have high := Int.ceil_lt_add_one (q - 1 / 2)
    constructor <;> linarith

theorem nearest_mono (order : q ≤ q') : nearest q ≤ nearest q' := by
  by_cases low : 0 ≤ q
  · rw [nearest_of_nonneg low, nearest_of_nonneg (low.trans order)]
    exact Int.floor_mono (by linarith)
  · by_cases high : 0 ≤ q'
    · have below : nearest q ≤ 0 := by
        rw [nearest, if_neg low, Int.ceil_le]
        push_cast
        linarith
      exact below.trans (nearest_nonneg high)
    · rw [nearest, nearest, if_neg low, if_neg high]
      exact Int.ceil_mono (by linarith)

theorem nearest_intCast (n : ℤ) : nearest n = n := by
  have low := Int.floor_intCast_add n (1 / 2 : ℚ)
  have high := Int.ceil_intCast_add n (-(1 / 2) : ℚ)
  unfold nearest
  split
  · rw [low]
    norm_num
  · rw [sub_eq_add_neg, high]
    norm_num

theorem fits_nearest (low : 0 ≤ q) (high : q ≤ Signed64.greatest) : Signed64.Fits (nearest q) := by
  refine ⟨le_trans (by decide) (nearest_nonneg low), ?_⟩
  rw [← nearest_intCast Signed64.greatest]
  exact nearest_mono high

theorem nearest_div {p d : ℤ} (positive : 0 < d) (h : 0 ≤ p) :
    nearest ((p : ℚ) / d) = (p + d.tdiv 2).tdiv d := by
  have wide : (0 : ℚ) < d := Int.cast_pos.mpr positive
  have half : d.tdiv 2 = d / 2 := Int.tdiv_eq_ediv_of_nonneg positive.le
  have quotient : (p + d.tdiv 2).tdiv d = (p + d / 2) / d := by
    rw [half]
    exact Int.tdiv_eq_ediv_of_nonneg (by omega)
  rw [nearest_of_nonneg (div_nonneg (Int.cast_nonneg h) wide.le), quotient, Int.floor_eq_iff]
  have low := Int.ediv_mul_le (p + d / 2) positive.ne'
  have high := Int.lt_ediv_add_one_mul_self (p + d / 2) positive
  generalize (p + d / 2) / d = n at low high ⊢
  -- For an odd `d` the half that was added is cut; no integer lies in the gap that this leaves.
  have below : 2 * (n * d) ≤ 2 * p + d := by omega
  have above : 2 * p + d < 2 * ((n + 1) * d) := by omega
  have below : (2 * (n * d) : ℚ) ≤ 2 * p + d := by exact_mod_cast below
  have above : (2 * p + d : ℚ) < 2 * ((n + 1) * d) := by exact_mod_cast above
  have twice : (p : ℚ) / d + 1 / 2 = (2 * p + d) / (2 * d) := by
    field_simp
  rw [twice, le_div_iff₀ (by linarith), div_lt_iff₀ (by linarith)]
  constructor <;> linarith

end nearest

namespace Rational

def value (a : Rational) : ℚ := a.num / a.den

theorem scale_eq_nearest {a : Rational} (positive : 0 < a.den) (v : ℤ) :
    a.scale v = Signed64.truncate (nearest (v * a.value)) := by
  have product : (v : ℚ) * a.value = ((v * a.num : ℤ) : ℚ) / a.den := by
    rw [value, Int.cast_mul, mul_div_assoc]
  rw [product, scale]
  generalize v * a.num = p
  congr 1
  split
  next h => exact (nearest_div positive h).symm
  next h =>
    have opposite := nearest_div positive (show 0 ≤ -p by omega)
    rw [Int.cast_neg, neg_div, nearest_neg] at opposite
    rw [show p - a.den.tdiv 2 = -(-p + a.den.tdiv 2) by omega, Int.neg_tdiv]
    omega

end Rational

end InverseTelecine
