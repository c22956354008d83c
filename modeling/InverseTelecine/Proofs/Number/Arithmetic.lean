import InverseTelecine.Proofs.Number.LowestTerms
import InverseTelecine.Proofs.Number.Scaling

namespace InverseTelecine

open Signed64

def euclid (a b : ℕ) : ℕ := if b = 0 then a else euclid b (a % b)
termination_by b
decreasing_by exact Nat.mod_lt a (Nat.pos_of_ne_zero ‹_›)

theorem euclid_eq_gcd (a b : ℕ) : euclid a b = a.gcd b := by
  induction a, b using euclid.induct with
  | case1 a =>
    rw [euclid, if_pos rfl, Nat.gcd_zero_right]
  | case2 a b more ih =>
    rw [euclid, if_neg more, ih, Nat.gcd_comm b, ← Nat.gcd_rec, Nat.gcd_comm]

def signed? (x : ℤ) : Option ℤ := if Fits x then some x else none

theorem compare_cross {p q d e : ℤ} (hd : 0 < d) (he : 0 < e) :
    compare (p * e) (q * d) = compare ((p : ℚ) / d) (q / e) := by
  have wideD : (0 : ℚ) < d := Int.cast_pos.mpr hd
  have wideE : (0 : ℚ) < e := Int.cast_pos.mpr he
  rcases lt_trichotomy (p * e) (q * d) with less | same | more
  · rw [compare_lt_iff_lt.mpr less, eq_comm, compare_lt_iff_lt, div_lt_div_iff₀ wideD wideE]
    exact_mod_cast less
  · rw [compare_eq_iff_eq.mpr same, eq_comm, compare_eq_iff_eq, div_eq_div_iff wideD.ne' wideE.ne']
    exact_mod_cast same
  · rw [compare_gt_iff_gt.mpr more, eq_comm, compare_gt_iff_gt, div_lt_div_iff₀ wideE wideD]
    exact_mod_cast more

namespace Rational

/-- Lowest terms by Euclid's loop, the divisor in a word that `word?` makes; none where the word overflows. -/
def lowestIn? (word? : ℤ → Option ℤ) (a : Rational) : Option Rational :=
  if a.num = 0 then some zero
  else (word? (euclid a.num.natAbs a.den.natAbs)).map fun divisor => ⟨a.num.tdiv divisor, a.den.tdiv divisor⟩

/-- A product in words of 128 bits; none where one of them overflows. -/
def mulWide? (a b : Rational) : Option Rational := do
  let num ← wide? (a.num * b.num)
  let den ← wide? (a.den * b.den)
  let exact : Rational ← if den < 0 then (do return ⟨← wide? (-num), ← wide? (-den)⟩) else some ⟨num, den⟩
  let reduced ← exact.lowestIn? wide?
  return ⟨truncate reduced.num, truncate reduced.den⟩

def cmpWide? (a b : Rational) : Option Ordering := do
  let left ← wide? (a.num * b.den)
  let right ← wide? (b.num * a.den)
  return compare left right

structure Valid (a : Rational) : Prop where
  num : Fits a.num
  den : Fits a.den
  positive : 0 < a.den

variable {a b c d : Rational} {q : ℚ}

theorem lowestIn?_eq {word? : ℤ → Option ℤ} (positive : 0 < a.den)
    (keeps : ∀ x, 0 < x → x ≤ a.den → word? x = some x) : a.lowestIn? word? = some a.lowest := by
  unfold lowestIn? lowest
  split
  · rfl
  · have divisor : ((euclid a.num.natAbs a.den.natAbs : ℕ) : ℤ) = a.num.gcd a.den := by rw [euclid_eq_gcd]; rfl
    have some : (0 : ℤ) < a.num.gcd a.den := Int.natCast_pos.mpr (Int.gcd_pos_of_ne_zero_right _ positive.ne')
    have bound : (a.num.gcd a.den : ℤ) ≤ a.den := Int.le_of_dvd positive (Int.gcd_dvd_right _ _)
    rw [divisor, keeps _ some bound, Option.map_some, Int.tdiv_eq_ediv_of_dvd (Int.gcd_dvd_left _ _),
      Int.tdiv_eq_ediv_of_dvd (Int.gcd_dvd_right _ _)]

theorem Valid.reduce_eq (h : a.Valid) : a.lowestIn? signed? = some a.reduce := by
  apply lowestIn?_eq h.positive
  intro x positive bound
  have high := h.den.2
  exact if_pos ⟨by simp only [least]; omega, by omega⟩

theorem Valid.mulWide?_eq (ha : a.Valid) (hb : b.Valid) : a.mulWide? b = some (a * b) := by
  have num := abs_mul_le_of_fits ha.num hb.num
  have den := abs_mul_le_of_fits ha.den hb.den
  have positive : 0 < a.den * b.den := Int.mul_pos ha.positive hb.positive
  rw [mulWide?, mul_def, ofExact, withSign, if_neg positive.not_gt]
  generalize a.num * b.num = p at num ⊢
  generalize a.den * b.den = s at den positive ⊢
  have keeps : ∀ x, 0 < x → x ≤ s → wide? x = some x := by
    intro x some bound
    apply wide?_of_abs_le
    rw [abs_of_pos some]
    rw [abs_of_pos positive] at den
    omega
  rw [wide?_of_abs_le (num.trans (by decide)), wide?_of_abs_le (den.trans (by decide))]
  simp only [Option.bind_eq_bind, Option.bind_some, if_neg positive.not_gt, lowestIn?_eq (a := ⟨p, s⟩) positive keeps]
  rfl

theorem Valid.cmpWide?_eq (ha : a.Valid) (hb : b.Valid) : a.cmpWide? b = some (a.cmp b) := by
  have left := abs_mul_le_of_fits ha.num hb.den
  have right := abs_mul_le_of_fits hb.num ha.den
  rw [cmpWide?, wide?_of_abs_le (left.trans (by decide)), wide?_of_abs_le (right.trans (by decide))]
  rfl

theorem cmp_eq_compare (ha : 0 < a.den) (hb : 0 < b.den) : a.cmp b = compare a.value b.value := compare_cross ha hb

theorem reduce_eq_ofRat (positive : 0 < a.den) : a.reduce = ofRat a.value := lowest_eq_ofRat positive

theorem ofRat_inj {p q : ℚ} : ofRat p = ofRat q ↔ p = q := by
  constructor
  · intro same
    rw [← value_ofRat p, same, value_ofRat]
  · exact congrArg ofRat

theorem cmp_eq_iff_reduce_eq (ha : 0 < a.den) (hb : 0 < b.den) : a.cmp b = .eq ↔ a.reduce = b.reduce := by
  rw [cmp_eq_compare ha hb, compare_eq_iff_eq, reduce_eq_ofRat ha, reduce_eq_ofRat hb, ofRat_inj]

theorem transCmp_valid : Std.TransCmp (fun a b : { a : Rational // a.Valid } => a.1.cmp b.1) := by
  have byValue : (fun a b : { a : Rational // a.Valid } => a.1.cmp b.1) = compareOn fun a => a.1.value := by
    funext a b
    exact cmp_eq_compare a.2.positive b.2.positive
  rw [byValue]
  infer_instance

theorem fits_ediv {x y : ℤ} (fits : Fits x) (positive : 0 < y) : Fits (x / y) := by
  obtain ⟨low, high⟩ := fits
  rcases le_total 0 x with nonneg | nonpos
  · have bound := Int.ediv_le_self y nonneg
    have sign := Int.ediv_nonneg nonneg positive.le
    exact ⟨le_trans (by decide) sign, bound.trans high⟩
  · have bound : x ≤ x / y := by
      rw [Int.le_ediv_iff_mul_le positive]
      exact mul_le_of_one_le_right nonpos positive
    have sign := Int.ediv_le_ediv positive nonpos
    rw [Int.zero_ediv] at sign
    exact ⟨low.trans bound, sign.trans (by decide)⟩

theorem Valid.reduce (h : a.Valid) : a.reduce.Valid := by
  have lowest : a.reduce.InLowestTerms a.value := lowest_inLowestTerms h.positive
  have divisor : (0 : ℤ) < a.num.gcd a.den := Int.natCast_pos.mpr (Int.gcd_pos_of_ne_zero_right _ h.positive.ne')
  refine ⟨?_, ?_, lowest.positive⟩
  all_goals
    unfold Rational.reduce Rational.lowest
    split
  · decide
  · exact fits_ediv h.num divisor
  · decide
  · exact fits_ediv h.den divisor

theorem Valid.representable (h : a.Valid) : Representable a.value := by
  have reduced := h.reduce
  rw [reduce_eq_ofRat h.positive] at reduced
  exact ⟨reduced.num, reduced.den⟩

theorem ofRat_valid (fits : Representable q) : (ofRat q).Valid :=
  ⟨fits.1, fits.2, (ofRat_inLowestTerms q).positive⟩

protected theorem mul_comm (a b : Rational) : a * b = b * a := by
  rw [mul_def, mul_def, Int.mul_comm a.num, Int.mul_comm a.den]

protected theorem mul_assoc (ha : 0 < a.den) (hb : 0 < b.den) (hc : 0 < c.den) (left : Representable (a.value * b.value))
    (right : Representable (b.value * c.value)) (all : Representable (a.value * b.value * c.value)) :
    a * b * c = a * (b * c) := by
  have first := (ofRat_inLowestTerms (a.value * b.value)).positive
  have last := (ofRat_inLowestTerms (b.value * c.value)).positive
  rw [mul_eq_ofRat ha hb left, mul_eq_ofRat hb hc right, mul_eq_ofRat first hc (by rwa [value_ofRat]),
    mul_eq_ofRat ha last (by rwa [value_ofRat, ← mul_assoc]), value_ofRat, value_ofRat, mul_assoc]

theorem mul_mul_inverse (ha : a.Valid) (hb : b.Valid) (some : 0 < b.num) (fits : Representable (a.value * b.value)) :
    a * b * ⟨b.den, b.num⟩ = a.reduce := by
  have turned : (⟨b.den, b.num⟩ : Rational).value = b.value⁻¹ := (inv_div _ _).symm
  have cancels : a.value * b.value * b.value⁻¹ = a.value :=
    mul_inv_cancel_right₀ (Rational.value_pos some hb.positive).ne' a.value
  have first := (ofRat_inLowestTerms (a.value * b.value)).positive
  rw [mul_eq_ofRat ha.positive hb.positive fits, mul_eq_ofRat first some, value_ofRat, turned, cancels,
    reduce_eq_ofRat ha.positive]
  rw [value_ofRat, turned, cancels]
  exact ha.representable

/-- Lowest terms, comparisons and products of 64-bit rationals overflow nowhere on the way. Lowest terms are the only ones
of their value with a positive denominator and no divisor left. The order is that of the values, and equal in it are those
with the same lowest terms. A product that fits is in lowest terms; so such products commute, associate and cancel, and
are the same if their values are. -/
theorem arithmetic_exact :
    (∀ a : Rational, a.Valid →
      a.lowestIn? signed? = some a.reduce ∧ a.reduce.Valid ∧ a.reduce.InLowestTerms a.value ∧
        (∀ r : Rational, r.InLowestTerms a.value → r = a.reduce) ∧ (a.num = 0 → a.reduce = ⟨0, 1⟩) ∧
        a.reduce.reduce = a.reduce) ∧
      Std.TransCmp (fun a b : { a : Rational // a.Valid } => a.1.cmp b.1) ∧
      (∀ a b : Rational, a.Valid → b.Valid →
        a.cmpWide? b = some (a.cmp b) ∧ a.cmp b = compare a.value b.value ∧ (a.cmp b = .eq ↔ a.reduce = b.reduce) ∧
          a.mulWide? b = some (a * b) ∧ a * b = b * a ∧
          (Representable (a.value * b.value) →
            (a * b).Valid ∧ (a * b).InLowestTerms (a.value * b.value) ∧
              (0 < b.num → ∃ r, b.inverse = .ok r ∧ r.Valid ∧ a * b * r = a.reduce))) ∧
      (∀ a b c : Rational, a.Valid → b.Valid → c.Valid → Representable (a.value * b.value) →
        Representable (b.value * c.value) → Representable (a.value * b.value * c.value) → a * b * c = a * (b * c)) ∧
      ∀ a b c d : Rational, a.Valid → b.Valid → c.Valid → d.Valid → Representable (a.value * b.value) →
        Representable (c.value * d.value) → (a * b).value = (c * d).value → a * b = c * d := by
  refine ⟨?_, transCmp_valid, ?_, ?_, ?_⟩
  · intro a valid
    have lowest : a.reduce.InLowestTerms a.value := lowest_inLowestTerms valid.positive
    have only : ∀ r : Rational, r.InLowestTerms a.value → r = a.reduce := by
      intro r other
      rw [other.eq_ofRat, lowest.eq_ofRat]
    have again : a.reduce.reduce.InLowestTerms a.reduce.value := lowest_inLowestTerms lowest.positive
    exact ⟨valid.reduce_eq, valid.reduce, lowest, only, fun none => if_pos none, only _ (lowest.value ▸ again)⟩
  · intro a b ha hb
    refine ⟨ha.cmpWide?_eq hb, cmp_eq_compare ha.positive hb.positive, cmp_eq_iff_reduce_eq ha.positive hb.positive,
      ha.mulWide?_eq hb, Rational.mul_comm a b, ?_⟩
    intro fits
    have product := mul_eq_ofRat ha.positive hb.positive fits
    refine ⟨product ▸ ofRat_valid fits, product ▸ ofRat_inLowestTerms _, ?_⟩
    intro some
    exact ⟨⟨b.den, b.num⟩, inverse_of_pos some, ⟨hb.den, hb.num, some⟩, mul_mul_inverse ha hb some fits⟩
  · intro a b c ha hb hc
    exact Rational.mul_assoc ha.positive hb.positive hc.positive
  · intro a b c d ha hb hc hd left right same
    rw [mul_eq_ofRat ha.positive hb.positive left, mul_eq_ofRat hc.positive hd.positive right, value_ofRat,
      value_ofRat] at same
    rw [mul_eq_ofRat ha.positive hb.positive left, mul_eq_ofRat hc.positive hd.positive right, same]

theorem arithmetic_exact_film :
    let rate : Rational := ⟨30000, 1001⟩
    let film : Rational := ⟨8, 10⟩
    let tick : Rational := ⟨1001, 30000⟩
    (⟨least, 6⟩ : Rational).reduce.InLowestTerms (⟨least, 6⟩ : Rational).value ∧ film.cmp ⟨4, 5⟩ = .eq ∧
      (rate * film).InLowestTerms (24000 / 1001) ∧ (∃ r, film.inverse = .ok r ∧ rate * film * r = rate) ∧
      rate * film * tick = rate * (film * tick) ∧ rate * film = ⟨48000, 1001⟩ * ⟨1, 2⟩ := by
  intro rate film tick
  obtain ⟨lowest, _, pairs, associate, same⟩ := arithmetic_exact
  have rateValid : rate.Valid := ⟨by decide, by decide, by decide⟩
  have filmValid : film.Valid := ⟨by decide, by decide, by decide⟩
  have tickValid : tick.Valid := ⟨by decide, by decide, by decide⟩
  have doubleValid : (⟨48000, 1001⟩ : Rational).Valid := ⟨by decide, by decide, by decide⟩
  have halfValid : (⟨1, 2⟩ : Rational).Valid := ⟨by decide, by decide, by decide⟩
  have fits : Representable (rate.value * film.value) := by decide +kernel
  obtain ⟨_, _, _, _, _, product⟩ := pairs rate film rateValid filmValid
  obtain ⟨_, reduced, cancels⟩ := product fits
  obtain ⟨r, turned, _, whole⟩ := cancels (by decide)
  have value : rate.value * film.value = 24000 / 1001 := by norm_num [Rational.value, rate, film]
  refine ⟨(lowest _ ⟨by decide, by decide, by decide⟩).2.2.1, ?_, value ▸ reduced, ⟨r, turned, whole.trans (by decide)⟩, ?_, ?_⟩
  · exact (pairs film ⟨4, 5⟩ filmValid ⟨by decide, by decide, by decide⟩).2.2.1.mpr (by decide)
  · exact associate rate film tick rateValid filmValid tickValid fits (by decide +kernel) (by decide +kernel)
  · have halved : Representable ((⟨48000, 1001⟩ : Rational).value * (⟨1, 2⟩ : Rational).value) := by decide +kernel
    obtain ⟨_, _, _, _, _, product⟩ := pairs _ _ doubleValid halfValid
    obtain ⟨_, other, _⟩ := product halved
    refine same rate film _ _ rateValid filmValid doubleValid halfValid fits halved ?_
    rw [reduced.value, other.value, value]
    norm_num [Rational.value]

end Rational

end InverseTelecine
