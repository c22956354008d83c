import InverseTelecine.Media.Time
import InverseTelecine.Proofs.Number.Arithmetic
import Mathlib.Order.WithBot

namespace InverseTelecine

theorem compare_withBot_coe (p q : ℚ) : compare (p : WithBot ℚ) q = compare p q := by
  rcases lt_trichotomy p q with less | rfl | more
  · rw [compare_lt_iff_lt.mpr less, compare_lt_iff_lt.mpr (WithBot.coe_lt_coe.mpr less)]
  · rw [compare_eq_iff_eq.mpr rfl, compare_eq_iff_eq.mpr rfl]
  · rw [compare_gt_iff_gt.mpr more, compare_gt_iff_gt.mpr (WithBot.coe_lt_coe.mpr more)]

theorem compare_bot_coe (q : ℚ) : compare (⊥ : WithBot ℚ) q = .lt := compare_lt_iff_lt.mpr (WithBot.bot_lt_coe q)

theorem compare_coe_bot (q : ℚ) : compare (q : WithBot ℚ) ⊥ = .gt := compare_gt_iff_gt.mpr (WithBot.bot_lt_coe q)

theorem wide?_of_mul {x d : ℤ} (positive : 0 < d) (room : (wide? (x * d)).isSome) :
    wide? x = some x ∧ wide? (x * d) = some (x * d) := by
  unfold wide? at room ⊢
  split at room
  next bounds =>
    have between : min 0 (x * d) ≤ x ∧ x ≤ max 0 (x * d) := by
      rcases le_total 0 x with nonneg | nonpos
      · exact ⟨(min_le_left _ _).trans nonneg, (le_mul_of_one_le_right nonneg positive).trans (le_max_right _ _)⟩
      · exact ⟨(min_le_right _ _).trans (mul_le_of_one_le_right nonpos positive), nonpos.trans (le_max_left _ _)⟩
    rw [if_pos (by omega), if_pos bounds]
    exact ⟨rfl, rfl⟩
  · cases room

namespace Timestamp

/-- The time in seconds; an undefined timestamp comes before all times. -/
def instant (t : Timestamp) : WithBot ℚ :=
  match t.ticks with
  | none => ⊥
  | some x => ((x * t.base.tick.value : ℚ) : WithBot ℚ)

/-- Ticks times the numerator of their base and the denominator of another, in words of 128 bits; none where one of them
overflows. -/
def crossWide? (ticks : ℤ) (own other : TimeBase) : Option ℤ := do
  let product ← wide? (ticks * own.tick.num)
  wide? (product * other.tick.den)

/-- A comparison in words of 128 bits; none where one of them overflows. -/
def cmpWide? (a b : Timestamp) : Option Ordering :=
  match a.ticks, b.ticks with
  | none, none => some .eq
  | none, some _ => some .lt
  | some _, none => some .gt
  | some x, some y => do
    let left ← crossWide? x a.base b.base
    let right ← crossWide? y b.base a.base
    return compare left right

def Crosses (a b : Timestamp) : Prop := ∀ x ∈ a.ticks, (wide? (x * a.base.tick.num * b.base.tick.den)).isSome

variable {a b : Timestamp}

theorem instant_ofTicks (v : ℤ) (tb : TimeBase) :
    (ofTicks v tb).instant = if v = reserved then ⊥ else ((v * tb.tick.value : ℚ) : WithBot ℚ) := by
  unfold instant ofTicks
  split_ifs <;> rfl

theorem instant_of_none (undefined : a.ticks = none) : a.instant = ⊥ := by
  rw [instant, undefined]

theorem instant_of_some {x : ℤ} (defined : a.ticks = some x) :
    a.instant = ((x * a.base.tick.value : ℚ) : WithBot ℚ) := by
  rw [instant, defined]

theorem cmp_eq_compare_instant (ha : 0 < a.base.tick.den) (hb : 0 < b.base.tick.den) :
    a.cmp b = compare a.instant b.instant := by
  cases first : a.ticks with
  | none =>
    cases second : b.ticks with
    | none =>
      simp only [cmp, first, second, instant_of_none first, instant_of_none second]
      exact (compare_eq_iff_eq.mpr rfl).symm
    | some y => simp only [cmp, first, second, instant_of_none first, instant_of_some second, compare_bot_coe]
  | some x =>
    cases second : b.ticks with
    | none => simp only [cmp, first, second, instant_of_some first, instant_of_none second, compare_coe_bot]
    | some y =>
      simp only [cmp, first, second, instant_of_some first, instant_of_some second, compare_withBot_coe]
      rw [compare_cross ha hb, Int.cast_mul, Int.cast_mul, mul_div_assoc, mul_div_assoc]
      rfl

theorem transCmp_positive : Std.TransCmp (fun a b : { t : Timestamp // 0 < t.base.tick.den } => a.1.cmp b.1) := by
  have byInstant : (fun a b : { t : Timestamp // 0 < t.base.tick.den } => a.1.cmp b.1) =
      compareOn fun t => t.1.instant := by
    funext a b
    exact cmp_eq_compare_instant a.2 b.2
  rw [byInstant]
  infer_instance

theorem Crosses.crossWide?_eq (h : a.Crosses b) (positive : 0 < b.base.tick.den) {x : ℤ} (defined : a.ticks = some x) :
    crossWide? x a.base b.base = some (x * a.base.tick.num * b.base.tick.den) := by
  obtain ⟨factor, product⟩ := wide?_of_mul positive (h x defined)
  rw [crossWide?, factor]
  exact product

theorem Crosses.cmpWide?_eq (first : a.Crosses b) (second : b.Crosses a) (ha : 0 < a.base.tick.den)
    (hb : 0 < b.base.tick.den) : a.cmpWide? b = some (a.cmp b) := by
  cases left : a.ticks with
  | none => cases right : b.ticks <;> simp only [cmpWide?, cmp, left, right]
  | some x =>
    cases right : b.ticks with
    | none => simp only [cmpWide?, cmp, left, right]
    | some y =>
      simp only [cmpWide?, cmp, left, right, first.crossWide?_eq hb left, second.crossWide?_eq ha right]
      rfl

theorem beq_iff_cmp (a b : Timestamp) : (a == b) = true ↔ a.cmp b = .eq := beq_iff_eq (a := a.cmp b)

/-- Timestamps are in the order of their exact times, those that are undefined before all others and equal to each other,
and two are equal if they stand for one time. This is a total preorder of all timestamps whose time bases have a positive
denominator; and it is found without an overflow where the products that are compared have room in 128 bits. -/
theorem order_exact :
    (∀ v tb, (ofTicks v tb).instant = if v = reserved then ⊥ else ((v * tb.tick.value : ℚ) : WithBot ℚ)) ∧
      Std.TransCmp (fun a b : { t : Timestamp // 0 < t.base.tick.den } => a.1.cmp b.1) ∧
      ∀ a b : Timestamp, 0 < a.base.tick.den → 0 < b.base.tick.den →
        (a.Crosses b → b.Crosses a → a.cmpWide? b = some (a.cmp b)) ∧ a.cmp b = compare a.instant b.instant ∧
          (a.ticks = none → b.ticks = none → a.cmp b = .eq) ∧
          (∀ y, a.ticks = none → b.ticks = some y → a.cmp b = .lt ∧ b.cmp a = .gt) ∧
          (∀ x y, a.ticks = some x → b.ticks = some y →
            a.cmp b = compare (x * a.base.tick.value) (y * b.base.tick.value)) ∧
          ((a == b) = true ↔ a.cmp b = .eq) ∧ ((a == b) = true ↔ a.instant = b.instant) := by
  refine ⟨instant_ofTicks, transCmp_positive, ?_⟩
  intro a b ha hb
  have exact := cmp_eq_compare_instant ha hb
  refine ⟨fun first second => first.cmpWide?_eq second ha hb, exact, ?_, ?_, ?_, beq_iff_cmp a b, ?_⟩
  · intro first second
    rw [exact, instant_of_none first, instant_of_none second, compare_eq_iff_eq]
  · intro y first second
    rw [exact, cmp_eq_compare_instant hb ha, instant_of_none first, instant_of_some second]
    exact ⟨compare_bot_coe _, compare_coe_bot _⟩
  · intro x y first second
    rw [exact, instant_of_some first, instant_of_some second, compare_withBot_coe]
  · rw [beq_iff_cmp, exact, compare_eq_iff_eq]

theorem order_exact_bases :
    let a := ofTicks 90000 .mpeg
    let b := ofTicks 1000 .milliseconds
    let c := ofTicks 7 ⟨⟨-1, 3⟩⟩
    let u := ofTicks reserved ⟨⟨-1, 3⟩⟩
    a.cmpWide? b = some (a.cmp b) ∧ (a == b) = true ∧ c.cmp a = .lt ∧ (c.cmp b).isLE ∧ u.cmp c = .lt ∧
      u.cmp (undefined .mpeg) = .eq := by
  intro a b c u
  obtain ⟨_, preorder, pairs⟩ := order_exact
  have da : 0 < a.base.tick.den := by decide
  have db : 0 < b.base.tick.den := by decide
  have dc : 0 < c.base.tick.den := by decide
  have du : 0 < u.base.tick.den := by decide
  obtain ⟨wide, _, _, _, _, same, _⟩ := pairs a b da db
  have first : a.Crosses b := by rintro x ⟨⟩; decide
  have second : b.Crosses a := by rintro x ⟨⟩; decide
  have equal : a.cmp b = .eq := by decide
  have before : c.cmp a = .lt := by
    obtain ⟨_, _, _, _, defined, _⟩ := pairs c a dc da
    rw [defined 7 90000 rfl rfl, compare_lt_iff_lt]
    norm_num [Rational.value, a, c, ofTicks, TimeBase.mpeg]
  have later : (c.cmp b).isLE :=
    preorder.isLE_trans (a := ⟨c, dc⟩) (b := ⟨a, da⟩) (c := ⟨b, db⟩) (by rw [before]; rfl) (by rw [equal]; rfl)
  exact ⟨wide first second, same.mpr equal, before, later, ((pairs u c du dc).2.2.2.1 7 rfl rfl).1,
    (pairs u (undefined .mpeg) du (by decide)).2.2.1 rfl rfl⟩

end Timestamp

end InverseTelecine
