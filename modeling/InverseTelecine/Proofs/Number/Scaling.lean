import InverseTelecine.Proofs.Number.Rounding

namespace InverseTelecine

open Signed64

/-- No integer is nearer to `q` than `n`, and none that is as near lies farther from zero. -/
structure NearestTo (q : ℚ) (n : ℤ) : Prop where
  closest : ∀ m : ℤ, |(n : ℚ) - q| ≤ |(m : ℚ) - q|
  away : ∀ m : ℤ, |(m : ℚ) - q| = |(n : ℚ) - q| → |m| ≤ |n|

namespace NearestTo

variable {q : ℚ} {n m : ℤ}

theorem neg (h : NearestTo q n) : NearestTo (-q) (-n) := by
  have mirror : ∀ k : ℤ, |(k : ℚ) - -q| = |((-k : ℤ) : ℚ) - q| := by
    intro k
    rw [← abs_neg]
    congr 1
    push_cast
    ring
  constructor
  · intro k
    rw [mirror, mirror, neg_neg]
    exact h.closest (-k)
  · intro k same
    rw [mirror, mirror, neg_neg] at same
    rw [abs_neg, ← abs_neg k]
    exact h.away (-k) same

theorem unique (h : NearestTo q n) (other : NearestTo q m) : n = m := by
  have near := le_antisymm (h.closest m) (other.closest n)
  have far := le_antisymm (other.away n near) (h.away m near.symm)
  rcases abs_eq_abs.mp far with same | opposite
  · exact same
  · -- Opposite integers are equally near to zero only, and there zero itself is the nearest.
    subst opposite
    have least := other.closest 0
    rw [Int.cast_neg] at near
    rcases abs_eq_abs.mp near with equal | mirrored
    · have zero : (m : ℚ) = 0 := by linarith
      rw [Int.cast_eq_zero.mp zero, neg_zero]
    · have zero : q = 0 := by linarith
      rw [zero, Int.cast_zero, sub_zero, sub_zero, abs_zero, abs_nonpos_iff] at least
      rw [Int.cast_eq_zero.mp least, neg_zero]

end NearestTo

theorem nearestTo_nearest_of_nonneg {q : ℚ} (h : 0 ≤ q) : NearestTo q (nearest q) := by
  have half := abs_nearest_sub_le q
  have above : -(1 / 2) < (nearest q : ℚ) - q := by
    have low := Int.lt_floor_add_one (q + 1 / 2)
    rw [nearest_of_nonneg h]
    linarith
  have positive := nearest_nonneg h
  generalize nearest q = n at half above positive
  rw [abs_le] at half
  -- Any other integer lies on one side of `n`, one off at least.
  have apart : ∀ m : ℤ, m = n ∨ (m : ℚ) ≤ n - 1 ∨ (n : ℚ) + 1 ≤ m := by
    intro m
    rcases lt_trichotomy m n with below | same | beyond
    · right; left
      have step : m ≤ n - 1 := by omega
      exact_mod_cast step
    · exact .inl same
    · right; right
      have step : n + 1 ≤ m := by omega
      exact_mod_cast step
  constructor
  · intro m
    rcases apart m with rfl | below | beyond
    · exact le_refl _
    · refine le_trans (abs_le.mpr half) ?_
      rw [le_abs]
      right
      linarith
    · refine le_trans (abs_le.mpr half) ?_
      rw [le_abs]
      left
      linarith
  · intro m same
    rcases apart m with rfl | below | beyond
    · exact le_refl _
    · have least : -(1 / 2 : ℚ) ≤ m := by
        have distance : |(m : ℚ) - q| ≤ 1 / 2 := same ▸ abs_le.mpr half
        have low := (abs_le.mp distance).1
        linarith
      have nonneg : 0 ≤ m := by
        have strict : (-1 : ℚ) < m := by linarith
        have strict : -1 < m := by exact_mod_cast strict
        omega
      have order : m ≤ n := by
        have step : (m : ℚ) ≤ n := by linarith
        exact_mod_cast step
      rw [abs_of_nonneg nonneg, abs_of_nonneg positive]
      exact order
    · exfalso
      have near : |(n : ℚ) - q| < |(m : ℚ) - q| := by
        rw [abs_lt]
        have size := le_abs_self ((m : ℚ) - q)
        constructor <;> linarith
      exact near.ne' same

theorem nearestTo_nearest (q : ℚ) : NearestTo q (nearest q) := by
  rcases le_total 0 q with nonneg | nonpos
  · exact nearestTo_nearest_of_nonneg nonneg
  · have mirrored := (nearestTo_nearest_of_nonneg (neg_nonneg.mpr nonpos)).neg
    rwa [nearest_neg, neg_neg, neg_neg] at mirrored

theorem abs_nearest_add_sub_le (p q : ℚ) : |nearest (p + q) - nearest p - nearest q| ≤ 1 := by
  have whole := abs_le.mp (abs_nearest_sub_le (p + q))
  have first := abs_le.mp (abs_nearest_sub_le p)
  have second := abs_le.mp (abs_nearest_sub_le q)
  have low : (-2 : ℚ) < (nearest (p + q) - nearest p - nearest q : ℤ) := by
    push_cast
    linarith
  have high : ((nearest (p + q) - nearest p - nearest q : ℤ) : ℚ) < 2 := by
    push_cast
    linarith
  have low : -2 < nearest (p + q) - nearest p - nearest q := by exact_mod_cast low
  have high : nearest (p + q) - nearest p - nearest q < 2 := by exact_mod_cast high
  rw [abs_le]
  omega

def wide? (x : ℤ) : Option ℤ :=
  if -170141183460469231731687303715884105728 ≤ x ∧ x ≤ 170141183460469231731687303715884105727 then some x else none

theorem wide?_of_abs_le {x : ℤ} (small : |x| ≤ 170141183460469231731687303715884105727) : wide? x = some x := by
  rw [abs_le] at small
  rw [wide?, if_pos (by omega)]

namespace Rational

/-- Scaling in words of 128 bits; none where one of them overflows. -/
def scaleWide? (a : Rational) (value : ℤ) : Option ℤ := do
  let product ← wide? (value * a.num)
  let half ← wide? (a.den.tdiv 2)
  let moved ← wide? (if 0 ≤ product then product + half else product - half)
  let rounded ← wide? (moved.tdiv a.den)
  return truncate rounded

/-- Both `value` and what it is scaled to are 64-bit numbers. -/
def Scales (a : Rational) (value : ℤ) : Prop := Fits value ∧ Fits (nearest (value * a.value))

variable {a : Rational} {v w : ℤ}

theorem abs_mul_le_of_fits (left : Fits v) (right : Fits w) : |v * w| ≤ 85070591730234615865843651857942052864 := by
  have size : ∀ {x : ℤ}, Fits x → |x| ≤ 9223372036854775808 := by
    intro x fits
    simp only [Fits, least, greatest] at fits
    rw [abs_le]
    omega
  rw [abs_mul]
  exact mul_le_mul (size left) (size right) (abs_nonneg w) (by decide)

theorem scaleWide?_eq_scale (positive : 0 < a.den) (num : Fits a.num) (den : Fits a.den) (fits : Fits v) :
    a.scaleWide? v = some (a.scale v) := by
  have size := abs_mul_le_of_fits fits num
  have half : 0 ≤ a.den.tdiv 2 ∧ a.den.tdiv 2 ≤ 9223372036854775807 := by
    rw [Int.tdiv_eq_ediv_of_nonneg positive.le]
    simp only [Fits, greatest] at den
    omega
  rw [scaleWide?, scale]
  generalize v * a.num = product at size ⊢
  generalize a.den.tdiv 2 = h at half ⊢
  rw [abs_le] at size
  have moved : |if 0 ≤ product then product + h else product - h| ≤ 85070591730234615875067023894796828671 := by
    rw [abs_le]
    split <;> omega
  rw [wide?_of_abs_le (abs_le.mpr (by omega)), wide?_of_abs_le (abs_le.mpr (by omega))]
  simp only [Option.bind_eq_bind, Option.bind_some]
  generalize (if 0 ≤ product then product + h else product - h) = sum at moved ⊢
  have quotient : |sum.tdiv a.den| ≤ |sum| := by
    rw [Int.abs_eq_natAbs, Int.abs_eq_natAbs]
    exact_mod_cast Int.natAbs_tdiv_le_natAbs sum a.den
  rw [wide?_of_abs_le (by omega), Option.bind_some, wide?_of_abs_le (by omega)]
  rfl

theorem scale_of_scales (positive : 0 < a.den) (h : a.Scales v) : a.scale v = nearest (v * a.value) := by
  rw [scale_eq_nearest positive, truncate_of_fits h.2]

theorem value_nonneg (positive : 0 < a.den) (h : 0 ≤ a.num) : 0 ≤ a.value :=
  div_nonneg (Int.cast_nonneg h) (Int.cast_nonneg positive.le)

theorem value_nonpos (positive : 0 < a.den) (h : a.num ≤ 0) : a.value ≤ 0 :=
  div_nonpos_of_nonpos_of_nonneg (Int.cast_nonpos.mpr h) (Int.cast_nonneg positive.le)

theorem mul_den_value (positive : 0 < a.den) (k : ℤ) : ((k * a.den : ℤ) : ℚ) * a.value = (k * a.num : ℤ) := by
  have nonzero : (a.den : ℚ) ≠ 0 := Int.cast_ne_zero.mpr positive.ne'
  rw [value]
  push_cast
  field_simp

theorem scale_mul_den (positive : 0 < a.den) {k : ℤ} (fits : Fits (k * a.num)) : a.scale (k * a.den) = k * a.num := by
  rw [scale_eq_nearest positive, mul_den_value positive, nearest_intCast, truncate_of_fits fits]

/-- Scaling stays within 128 bits. It gives the nearest integer, halves away from zero; so it keeps or turns the order
with the sign of the rational, is odd, gives whole multiples exactly, and misses a sum by one at most. -/
theorem scale_exact (positive : 0 < a.den) (num : Fits a.num) (den : Fits a.den) :
    (∀ v, Fits v → a.scaleWide? v = some (a.scale v)) ∧
      (∀ v, a.Scales v → ∀ n, a.scale v = n ↔ NearestTo (v * a.value) n) ∧
      (0 ≤ a.num → ∀ v w, a.Scales v → a.Scales w → v ≤ w → a.scale v ≤ a.scale w) ∧
      (a.num ≤ 0 → ∀ v w, a.Scales v → a.Scales w → v ≤ w → a.scale w ≤ a.scale v) ∧
      (∀ v, a.Scales v → a.Scales (-v) → a.scale (-v) = -a.scale v) ∧
      (∀ k, Fits (k * a.den) → Fits (k * a.num) → a.scale (k * a.den) = k * a.num) ∧
      ∀ v w, a.Scales v → a.Scales w → a.Scales (v + w) → |a.scale (v + w) - a.scale v - a.scale w| ≤ 1 := by
  have nearest_eq : ∀ {v}, a.Scales v → a.scale v = nearest (v * a.value) := scale_of_scales positive
  refine ⟨fun v => scaleWide?_eq_scale positive num den, ?_, ?_, ?_, ?_, fun k _ fits => scale_mul_den positive fits, ?_⟩
  · intro v scales n
    rw [nearest_eq scales]
    constructor
    · rintro rfl
      exact nearestTo_nearest _
    · exact (nearestTo_nearest _).unique
  · intro nonneg v w first second order
    rw [nearest_eq first, nearest_eq second]
    exact nearest_mono (mul_le_mul_of_nonneg_right (Int.cast_le.mpr order) (value_nonneg positive nonneg))
  · intro nonpos v w first second order
    rw [nearest_eq first, nearest_eq second]
    exact nearest_mono (mul_le_mul_of_nonpos_right (Int.cast_le.mpr order) (value_nonpos positive nonpos))
  · intro v first second
    rw [nearest_eq first, nearest_eq second, Int.cast_neg, neg_mul, nearest_neg]
  · intro v w first second both
    rw [nearest_eq first, nearest_eq second, nearest_eq both, Int.cast_add, add_mul]
    exact abs_nearest_add_sub_le _ _

theorem scale_exact_halves :
    let a : Rational := ⟨-5, 2⟩
    a.Scales 3 ∧ a.scaleWide? 3 = some (a.scale 3) ∧ NearestTo ((3 : ℤ) * a.value) (-8) ∧ a.scale 3 ≤ a.scale 1 ∧
      a.scale (-3) = -a.scale 3 ∧ a.scale (2 * 2) = 2 * -5 ∧ |a.scale (3 + 1) - a.scale 3 - a.scale 1| ≤ 1 := by
  have scales : ∀ v ∈ [-3, 1, 3, 3 + 1], (⟨-5, 2⟩ : Rational).Scales v := by
    simp only [List.forall_mem_cons, List.not_mem_nil, false_implies, implies_true, and_true]
    refine ⟨?_, ?_, ?_, ?_⟩
    all_goals exact ⟨by decide, by norm_num [nearest, value, Fits, least, greatest]⟩
  obtain ⟨wide, exact, _, falls, odd, whole, sums⟩ := scale_exact (a := ⟨-5, 2⟩) (by decide) (by decide) (by decide)
  have three := scales 3 (by decide)
  have one := scales 1 (by decide)
  exact ⟨three, wide 3 three.1, (exact 3 three (-8)).mp rfl, falls (by decide) 1 3 one three (by decide),
    odd 3 three (scales (-3) (by decide)), whole 2 (by decide) (by decide), sums 3 1 three one (scales (3 + 1) (by decide))⟩

end Rational

end InverseTelecine
