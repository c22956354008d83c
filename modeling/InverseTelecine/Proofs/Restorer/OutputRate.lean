import InverseTelecine.Proofs.Restorer.Drift
import InverseTelecine.Proofs.Restorer.EmptySlots

namespace InverseTelecine

section count

variable {digits : List Nat} (filled : digits ≠ []) (positive : ∀ d ∈ digits, 0 < d) (most : ∀ d ∈ digits, d ≤ 9)
include filled positive most

theorem slotStart_slotsBefore {n : Nat} (some : 0 < n) :
    let count := slotsBefore (cyclic digits) (2 * n - 1)
    2 * n - 1 ≤ slotStart (cyclic digits) count ∧ slotStart (cyclic digits) count ≤ 2 * n + 7 := by
  intro count
  have each : ∀ i, 0 < cyclic digits i := fun i => positive _ (cyclic_mem filled i)
  refine ⟨(isLeast_slotsBefore each _).1, ?_⟩
  have before : 0 < count := by
    rw [lt_slotsBefore_iff each, slotStart_zero]
    omega
  obtain ⟨k, last⟩ := Nat.exists_eq_add_one_of_ne_zero before.ne'
  have started : slotStart (cyclic digits) k < 2 * n - 1 := by
    rw [← lt_slotsBefore_iff each]
    omega
  have short := most _ (cyclic_mem filled k)
  rw [last, slotStart_succ]
  omega

theorem slotsBefore_between (n : Nat) :
    let count := slotsBefore (cyclic digits) (2 * n - 1)
    count * Cadence.fieldCount digits ≤ digits.length * (2 * n + 7 + Cadence.fieldCount digits) ∧
      digits.length * (2 * n) ≤ (count + digits.length) * Cadence.fieldCount digits + digits.length := by
  intro count
  rcases Nat.eq_zero_or_pos n with rfl | some
  · have none : count = 0 := rfl
    rw [none]
    omega
  · obtain ⟨low, high⟩ : 2 * n - 1 ≤ slotStart (cyclic digits) count ∧ slotStart (cyclic digits) count ≤ 2 * n + 7 :=
      slotStart_slotsBefore filled positive most some
    obtain ⟨early, late⟩ := slotStart_cyclic_between filled positive count
    constructor
    · exact early.le.trans (Nat.mul_le_mul_left _ (Nat.add_le_add_right high _))
    · calc digits.length * (2 * n)
          ≤ digits.length * (slotStart (cyclic digits) count + 1) := Nat.mul_le_mul_left _ (by omega)
        _ = digits.length * slotStart (cyclic digits) count + digits.length := Nat.mul_succ _ _
        _ ≤ (count + digits.length) * Cadence.fieldCount digits + digits.length := Nat.add_le_add_right late.le _

theorem abs_ratio_gap_le (n : Nat) :
    |(slotsBefore (cyclic digits) (2 * n - 1) * Cadence.fieldCount digits - n * (2 * digits.length) : ℤ)| ≤
      digits.length * (Cadence.fieldCount digits + 9) := by
  obtain ⟨low, high⟩ := slotsBefore_between filled positive most n
  zify at low high
  rw [abs_le]
  constructor <;> linarith

end count

theorem length_undropped_le {α : Type} (inputs : List α) (readings : List (List Nat)) :
    (undropped inputs readings).length ≤ inputs.length := by
  rw [undropped, List.length_map]
  refine (List.length_filter_le _ _).trans ?_
  rw [List.length_zip]
  exact Nat.min_le_left _ _

/-- Each cycle with a zero gives a picture less than the ratio counts. -/
theorem lt_abs_ratio_gap {digits : List Nat} (some : 0 < Cadence.fieldCount digits) (most : ∀ d ∈ digits, d ≤ 9)
    (zero : 0 ∈ digits) {n count : Nat}
    (few : count ≤ slotsBefore (cyclic (digits.filter (· ≠ 0))) (2 * n - 1) + 1)
    (long : digits.length * (Cadence.fieldCount digits + 9) ≤ n) :
    (digits.length * (Cadence.fieldCount digits + 9) : ℤ) <
      |(count * Cadence.fieldCount digits - n * (2 * digits.length) : ℤ)| := by
  have same := fieldCount_nonzero digits
  have fewer : (digits.filter (· ≠ 0)).length < digits.length :=
    List.length_filter_lt_length_iff_exists.mpr ⟨0, zero, by simp⟩
  have filled : digits.filter (· ≠ 0) ≠ [] := Cadence.ne_nil_of_lt (same ▸ some)
  have positive : ∀ d ∈ digits.filter (· ≠ 0), 0 < d :=
    fun d member => Nat.pos_of_ne_zero (by simpa using (List.mem_filter.mp member).2)
  have most' : ∀ d ∈ digits.filter (· ≠ 0), d ≤ 9 := fun d member => most d (List.mem_of_mem_filter member)
  have low := (slotsBefore_between filled positive most' n).1
  rw [same] at low
  generalize slotsBefore _ (2 * n - 1) = slots at few low
  generalize (digits.filter (· ≠ 0)).length = nonzero at fewer low
  generalize Cadence.fieldCount digits = fields at long low ⊢
  obtain ⟨rest, whole⟩ := Nat.exists_eq_add_of_lt fewer
  rw [whole] at long ⊢
  have shown : count * fields ≤ slots * fields + fields := by
    rw [← Nat.succ_mul]
    exact Nat.mul_le_mul_right fields few
  have slack : nonzero * (7 + fields) + fields < n := by
    refine Nat.lt_of_lt_of_le ?_ long
    nlinarith
  -- A cycle holds one slot more than it gives pictures, so the gap grows by two fields with each input.
  have gap : count * fields + (nonzero + rest + 1) * (fields + 9) < n * (2 * (nonzero + rest + 1)) :=
    calc count * fields + (nonzero + rest + 1) * (fields + 9)
        ≤ nonzero * (2 * n + 7 + fields) + fields + n :=
          Nat.add_le_add (shown.trans (Nat.add_le_add_right low _)) long
      _ = nonzero * (2 * n) + (nonzero * (7 + fields) + fields) + n := by ring
      _ < nonzero * (2 * n) + n + n := by omega
      _ ≤ n * (2 * (nonzero + rest + 1)) := by nlinarith
  rw [lt_abs]
  right
  zify at gap
  push_cast
  linarith

namespace RowRouter

theorem Trails.length_le {m m' : RowRouter} {owed : List Visible} (h : Trails m m' owed) : owed.length ≤ 1 := by
  cases h with
  | even => exact Nat.zero_le 1
  | ahead => exact Nat.le_refl 1

theorem length_outputs_le {digits : List Nat} (inside : 0 < Cadence.fieldCount digits)
    (last : digits.getLast? ≠ some 0) (zeros : Nat) (first : FieldParity) (inputs : List Visible) :
    ((RowRouter.start (digits ++ List.replicate zeros 0) 0 first).outputs inputs).flatten.length ≤
      slotsBefore (cyclic (digits.filter (· ≠ 0))) (2 * inputs.length - 1) + 1 := by
  obtain ⟨owed, trails, shown, -⟩ := (trails_start inside last zeros first).run inputs
  have fewer := length_undropped_le inputs
    ((RowRouter.start (digits ++ List.replicate zeros 0) 0 first).readings inputs)
  have cut : Cadence.cutFields digits 0 = cyclic (digits.filter (· ≠ 0)) := by
    rw [← nonzeroFrom_zero]
    rfl
  have each := Cadence.cutFields_pos inside last
  rw [shown, flatten_outputs_start inside last, List.length_append, List.length_map, List.length_range, ← cut]
  exact Nat.add_le_add (slotsBefore_mono each (by omega)) trails.length_le

end RowRouter

namespace Restorer

variable {σ : Type} {ends : Endpoints σ} {options : Options} {stream : InputStream} {c : Cadence} {r : Restorer}

/-- The count of pictures keeps to the ratio of the cadence if its pattern has no zero, and only then. -/
theorem run_keeps_ratio (accepted : options.cadence = .ok c) (uncut : options.start = 0)
    (started : r.Started options stream) {inputs : List Frame}
    (fits : ∀ f ∈ inputs, f.picture.Fits stream.layout) (s : σ)
    (quiet : ∀ d ∈ calls ends r inputs s, d.Undisturbed stream.layout) :
    let count := ((calls ends r inputs s).flatMap Call.shown).length
    let gap := |count * c.ratio.num - inputs.length * c.ratio.den|
    let bound : ℤ := c.digits.length * (Cadence.fieldCount c.digits + 9)
    (0 ∉ c.digits → gap ≤ bound) ∧ (0 ∈ c.digits → bound ≤ inputs.length → bound < gap) := by
  intro count gap bound
  have parsed := Options.cadence_eq_ok accepted
  have inside := parsed.inside
  have ratio : c.ratio = ⟨Cadence.fieldCount c.digits, 2 * c.digits.length⟩ := by
    rw [Options.cadence_eq_ofDigits accepted]
    rfl
  simp only [gap, ratio]
  constructor
  · intro none
    have positive : ∀ d ∈ c.digits, 0 < d := by
      intro d member
      apply Nat.pos_of_ne_zero
      rintro rfl
      exact none member
    have shown := congrArg List.length (started.shown accepted (getLast?_of_pos positive) fits s quiet)
    rw [uncut, Cadence.cutFields_zero positive, List.length_map, List.length_range] at shown
    rw [show count = _ from shown]
    exact abs_ratio_gap_le (Cadence.ne_nil_of_lt inside) positive parsed.le_nine inputs.length
  · intro zero long
    obtain ⟨zeros, padded⟩ := eq_rdropWhile_append c.digits 0
    have last := getLast?_rdropWhile c.digits 0
    generalize c.digits.rdropWhile (· = 0) = digits at padded last
    have some : 0 < Cadence.fieldCount digits := by
      rw [← Cadence.fieldCount_append_zeros digits zeros, ← padded]
      exact Nat.zero_lt_of_lt inside
    have kept : c.digits.filter (· ≠ 0) = digits.filter (· ≠ 0) := by simp [padded]
    have few := RowRouter.length_outputs_le some last zeros options.first (inputs.map (·.picture.visible))
    have follows := started.follows accepted
    rw [uncut, padded] at follows
    rw [← follows.shown fits s quiet, List.length_map, ← kept] at few
    have enough : (c.digits.length * (Cadence.fieldCount c.digits + 9) : ℤ) ≤ inputs.length := long
    exact lt_abs_ratio_gap (Nat.zero_lt_of_lt inside) parsed.le_nine zero few (by exact_mod_cast enough)

theorem run_keeps_ratio_columns :
    ∃ even short, (start (Pool.supply .boundless) .default .columns Pool.columns).result = .ok even ∧
      (start (Pool.supply .boundless) ⟨.top, "20", 0⟩ .columns Pool.columns).result = .ok short ∧
      let few := Frame.columns (List.replicate 5 (0, 1))
      let many := Frame.columns (List.replicate 22 (0, 1))
      let shown := fun r inputs =>
        (calls (Pool.supply .boundless).collecting r inputs (Pool.columns, [])).flatMap Call.shown
      |((shown even few).length * 5 - 5 * 4 : ℤ)| ≤ 2 * (5 + 9) ∧
        (2 * (2 + 9) : ℤ) < |((shown short many).length * 2 - 22 * 4 : ℤ)| := by
  obtain ⟨even, built⟩ : ∃ r, (start (Pool.supply .boundless) .default .columns Pool.columns).result = .ok r := ⟨_, rfl⟩
  obtain ⟨short, shortBuilt⟩ :
      ∃ r, (start (Pool.supply .boundless) ⟨.top, "20", 0⟩ .columns Pool.columns).result = .ok r := ⟨_, rfl⟩
  have accepted : Options.default.cadence = .ok ⟨[2, 3], 0, 0, 0, 0, ⟨5, 4⟩, 0⟩ := rfl
  have shortAccepted : Options.cadence ⟨.top, "20", 0⟩ = .ok ⟨[2, 0], 0, 0, 0, 0, ⟨2, 4⟩, 0⟩ := rfl
  refine ⟨even, short, built, shortBuilt, ?_, ?_⟩
  · exact (run_keeps_ratio accepted rfl (columns_started built) (Frame.columns_fit _) _
      (columns_undisturbed even (Frame.columns (List.replicate 5 (0, 1))))).1 (by decide)
  · exact (run_keeps_ratio shortAccepted rfl (columns_started shortBuilt) (Frame.columns_fit _) _
      (columns_undisturbed short (Frame.columns (List.replicate 22 (0, 1))))).2 (by decide) (by decide)

theorem empty_slots_break_ratio :
    ∃ r, (start (Pool.supply .boundless) ⟨.top, "20", 0⟩ .columns Pool.columns).result = .ok r ∧
      let inputs := Frame.columns (List.replicate 8 (0, 1))
      let count := ((calls (Pool.supply .boundless).collecting r inputs (Pool.columns, [])).flatMap Call.shown).length
      count = 4 ∧ ¬ |(count * 2 - 8 * 4 : ℤ)| ≤ 2 * (2 + 9) := by
  obtain ⟨r, built⟩ : ∃ r, (start (Pool.supply .boundless) ⟨.top, "20", 0⟩ .columns Pool.columns).result = .ok r := ⟨_, rfl⟩
  have accepted : Options.cadence ⟨.top, "20", 0⟩ = .ok ⟨[2, 0], 0, 0, 0, 0, ⟨2, 4⟩, 0⟩ := rfl
  refine ⟨r, built, ?_⟩
  intro inputs count
  have four : count = 4 := congrArg List.length (((columns_started built).follows accepted).shown
    (Frame.columns_fit _) _ (columns_undisturbed r inputs))
  rw [four]
  decide

end Restorer

end InverseTelecine
