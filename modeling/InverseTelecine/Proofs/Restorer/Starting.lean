import InverseTelecine.Proofs.Options.Values
import InverseTelecine.Proofs.Restorer.Reliable
import InverseTelecine.Proofs.Retiming

namespace InverseTelecine

theorem Signed64.truncate_eq_zero_iff (x : ℤ) : truncate x = 0 ↔ (2 ^ 64 : ℤ) ∣ x := by
  rw [truncate, show (2 ^ 64 : ℤ) = (18446744073709551616 : ℕ) by norm_num]
  exact Int.dvd_iff_bmod_eq_zero.symm

namespace Rational

def exactMul (a b : Rational) : Rational := (withSign (a.num * b.num) (a.den * b.den)).lowest

theorem num_mul_eq_zero_iff (a b : Rational) : (a * b).num = 0 ↔ (2 ^ 64 : ℤ) ∣ (a.exactMul b).num :=
  Signed64.truncate_eq_zero_iff (a.exactMul b).num

end Rational

namespace Pace

/-- The pace of the pictures behind frames of the pace `p`. -/
def restored (p : Pace) (ratio : Rational) : Pace := ⟨p.rate * ⟨ratio.den, ratio.num⟩, ⟨p.base.tick * ratio⟩⟩

/-- In lowest terms, no low 64 bits are set in the count of frames that go into some ticks. -/
def Vanishes (p : Pace) : Prop := (2 ^ 64 : ℤ) ∣ (p.rate.exactMul p.base.tick).num

/-- In lowest terms, the low 64 bits of that count are a negative number, and they or those of the ticks are the least
one, which has no opposite. -/
def Overturns (p : Pace) : Prop :=
  let frames := p.rate.exactMul p.base.tick
  Rational.Overflows (Signed64.truncate frames.den) (Signed64.truncate frames.num)

theorem mul_num_pos {p : Pace} (rateDen : 0 < p.rate.den) (tickDen : 0 < p.base.tick.den)
    (rate : 0 < p.rate.value) (tick : 0 < p.base.tick.value) (fits : p.rate.MulFits p.base.tick) :
    0 < (p.rate * p.base.tick).num := by
  have den := fits.den_pos rateDen tickDen
  have value := mul_pos rate tick
  rw [← fits.value_mul rateDen tickDen, Rational.value] at value
  exact Int.cast_pos.mp ((div_pos_iff_of_pos_right (Int.cast_pos.mpr den)).mp value)

end Pace

namespace Retiming

variable {input : Pace} {ratio : Rational}

theorem derive_of_pos (rate : 0 < input.rate.num) (tick : 0 < input.base.tick.num) (positive : 0 < ratio.num) :
    (derive input ratio).value =
      match ((input.restored ratio).rate * (input.restored ratio).base.tick).inverse with
      | .error f => .error (.fault f)
      | .ok frameTicks => .ok ⟨input, input.restored ratio, frameTicks⟩ := by
  have checked : requirePositive input ratio = .ok () := by
    simp [requirePositive, Rational.isPositive, rate, tick, positive]
  simp only [derive, checked, Rational.inverse_of_pos positive, Pace.restored]
  cases (input.rate * ⟨ratio.den, ratio.num⟩ * (input.base.tick * ratio)).inverse <;> rfl

theorem derive_of_not_pos (h : ¬ (0 < input.rate.num ∧ 0 < input.base.tick.num ∧ 0 < ratio.num)) :
    ∃ e, (derive input ratio).value = .error (.error e) := by
  unfold derive
  cases checked : requirePositive input ratio with
  | error e => exact ⟨e, rfl⟩
  | ok _ => exact absurd (requirePositive_eq_ok checked) h

theorem derive_eq_fault_iff (input : Pace) (ratio : Rational) (f : Fault) :
    (derive input ratio).value = .error (.fault f) ↔
      (0 < input.rate.num ∧ 0 < input.base.tick.num ∧ 0 < ratio.num) ∧
        ((input.restored ratio).Vanishes ∧ f = .reciprocalOfZero ∨
          (input.restored ratio).Overturns ∧ f = .negateOverflow) := by
  by_cases positive : 0 < input.rate.num ∧ 0 < input.base.tick.num ∧ 0 < ratio.num
  · obtain ⟨rate, tick, count⟩ := positive
    rw [derive_of_pos rate tick count, Pace.Vanishes, ← Rational.num_mul_eq_zero_iff, Pace.Overturns,
      and_iff_right ⟨rate, tick, count⟩]
    refine Iff.trans ?_ (Rational.inverse_eq_error_iff _ f)
    cases ((input.restored ratio).rate * (input.restored ratio).base.tick).inverse with
    | error g => simp only [Except.error.injEq, Stop.fault.injEq]
    | ok frameTicks => simp only [reduceCtorEq]
  · obtain ⟨e, turnedAway⟩ := derive_of_not_pos positive
    simp [turnedAway, positive]

end Retiming

theorem Options.ratio_pos {options : Options} {c : Cadence} (accepted : options.cadence = .ok c) :
    0 < c.ratio.num ∧ 0 < c.ratio.den := by
  have inside := (cadence_eq_ok accepted).inside
  have filled := List.length_pos_of_ne_nil (Cadence.ne_nil_of_lt inside)
  rw [cadence_eq_ofDigits accepted]
  constructor
  · show (0 : ℤ) < Cadence.fieldCount c.digits
    omega
  · show (0 : ℤ) < 2 * c.digits.length
    omega

namespace Restorer

variable {σ : Type} {supply : Supply σ} {options : Options} {stream : InputStream} {s : σ}

theorem takeBuffer_ne_fault {stop : Stop FilterError} {next : σ} (taken : takeBuffer supply s = (.error stop, next))
    (f : Fault) : stop ≠ .fault f := by
  unfold takeBuffer at taken
  split at taken
  · cases taken
    exact fun same => nomatch same
  · cases taken

theorem furnish_ne_fault (supply : Supply σ) (options : Options) (stream : InputStream) (cadence : Cadence)
    (retiming : Retiming) (s : σ) (f : Fault) :
    (furnish supply options stream cadence retiming s).1 ≠ .error (.fault f) := by
  intro failed
  unfold furnish at failed
  split at failed
  next taken => exact takeBuffer_ne_fault taken f (Except.error.inj failed)
  next =>
    split at failed
    next taken => exact takeBuffer_ne_fault taken f (Except.error.inj failed)
    next =>
      split at failed
      next taken => exact takeBuffer_ne_fault taken f (Except.error.inj failed)
      next => cases failed

section timed

variable {c : Cadence} {retiming : Retiming} (own : supply.layout s = stream.layout)
  (accepted : options.cadence = .ok c) (derived : (Retiming.derive stream.pace c.ratio).value = .ok retiming)
include own accepted derived

theorem start_eq_furnish :
    (start supply options stream s).result = (furnish supply options stream c retiming s).1 ∧
      (start supply options stream s).state = (furnish supply options stream c retiming s).2 := by
  have same := (requireLayout_eq_ok_iff stream.layout (supply.layout s)).mpr own.symm
  simp only [start, accepted, same, derived, and_self]

theorem start_of_reliable {inv : σ → Prop} (reliable : supply.Reliable stream.layout inv) (before : inv s) :
    ∃ r, (start supply options stream s).result = .ok r ∧ r.Started options stream ∧
      inv (start supply options stream s).state := by
  obtain ⟨result, state⟩ := start_eq_furnish own accepted derived
  obtain ⟨r, next, furnished, _, kept⟩ := reliable_furnish reliable options c retiming before
  rw [furnished] at result state
  rw [state]
  exact ⟨r, result, reliable_start reliable before result, kept⟩

theorem start_of_denied {cause : MediaError} (denied : (supply.take s).1 = .error cause) :
    (start supply options stream s).result = .error (.error (.noBuffer cause.message)) := by
  rw [(start_eq_furnish own accepted derived).1, furnish, takeBuffer]
  cases taken : supply.take s with
  | mk answer next =>
    rw [taken] at denied
    obtain rfl : answer = .error cause := denied
    rfl

end timed

theorem start_eq_fault_iff (own : supply.layout s = stream.layout) (f : Fault) :
    (start supply options stream s).result = .error (.fault f) ↔
      options.cadence = .error (.fault f) ∨
        ∃ c, options.cadence = .ok c ∧ (Retiming.derive stream.pace c.ratio).value = .error (.fault f) := by
  have same := (requireLayout_eq_ok_iff stream.layout (supply.layout s)).mpr own.symm
  cases accepted : options.cadence with
  | error stop => simp [start, accepted]
  | ok c =>
    cases derived : (Retiming.derive stream.pace c.ratio).value with
    | error stop => simp [start, accepted, same, derived]
    | ok retiming =>
      rw [(start_eq_furnish own accepted derived).1]
      simp [derived, furnish_ne_fault]

/-- Rates whose exact products fit are rejected at most. -/
theorem start_of_exact (memory : Memory) {c : Cadence} (accepted : options.cadence = .ok c)
    (rateDen : 0 < stream.pace.rate.den) (tickDen : 0 < stream.pace.base.tick.den)
    (rate : stream.pace.rate.MulFits ⟨c.ratio.den, c.ratio.num⟩)
    (tick : stream.pace.base.tick.MulFits c.ratio)
    (fits : (stream.pace.restored c.ratio).rate.MulFits (stream.pace.restored c.ratio).base.tick) (f : Fault) :
    (startPooled memory options stream).result ≠ .error (.fault f) := by
  intro failed
  rw [startPooled, start_eq_fault_iff rfl] at failed
  have failed : (Retiming.derive stream.pace c.ratio).value = .error (.fault f) := by
    rcases failed with unread | ⟨c', parsed, failed⟩
    · rw [accepted] at unread
      cases unread
    · obtain rfl : c = c' := Except.ok.inj (accepted.symm.trans parsed)
      exact failed
  obtain ⟨⟨ratePos, tickPos, ratioNum⟩, lost⟩ := (Retiming.derive_eq_fault_iff _ _ f).mp failed
  have ratioDen := (Options.ratio_pos accepted).2
  have rateValue : 0 < (stream.pace.restored c.ratio).rate.value := by
    rw [Pace.restored, rate.value_mul rateDen ratioNum]
    exact mul_pos (Rational.value_pos ratePos rateDen) (Rational.value_pos ratioDen ratioNum)
  have tickValue : 0 < (stream.pace.restored c.ratio).base.tick.value := by
    rw [Pace.restored, tick.value_mul tickDen ratioDen]
    exact mul_pos (Rational.value_pos tickPos tickDen) (Rational.value_pos ratioNum ratioDen)
  have frames := Pace.mul_num_pos (rate.den_pos rateDen ratioNum) (tick.den_pos tickDen ratioDen) rateValue tickValue fits
  rcases lost with ⟨vanishes, _⟩ | ⟨overturns, _⟩
  · exact frames.ne' ((Rational.num_mul_eq_zero_iff _ _).mpr vanishes)
  · exact absurd overturns.1 frames.not_gt

/-- Whatever the options and rates, a start is granted or rejected with an error, unless the fields of a cycle are too
many to be counted, the frames that go into a tick of its output vanish, or their sign cannot be moved. -/
theorem start_faults_iff (memory : Memory) (options : Options) (stream : InputStream) (f : Fault) :
    (startPooled memory options stream).result = .error (.fault f) ↔
      options.TooLong ∧ f = .addOverflow ∨
        0 < stream.pace.rate.num ∧ 0 < stream.pace.base.tick.num ∧
          ∃ c, options.cadence = .ok c ∧
            ((stream.pace.restored c.ratio).Vanishes ∧ f = .reciprocalOfZero ∨
              (stream.pace.restored c.ratio).Overturns ∧ f = .negateOverflow) := by
  rw [startPooled, start_eq_fault_iff rfl, Options.cadence_eq_fault_iff]
  apply or_congr Iff.rfl
  constructor
  · rintro ⟨c, accepted, failed⟩
    obtain ⟨⟨rate, tick, _⟩, lost⟩ := (Retiming.derive_eq_fault_iff _ _ f).mp failed
    exact ⟨rate, tick, c, accepted, lost⟩
  · rintro ⟨rate, tick, c, accepted, lost⟩
    refine ⟨c, accepted, (Retiming.derive_eq_fault_iff _ _ _).mpr ⟨⟨rate, tick, ?_⟩, lost⟩⟩
    exact (Options.ratio_pos accepted).1

/-- At 2^61 frames a second, a pattern that finds eight pictures in a frame; and 2^40 frames a second, 2^63 of them in a
tick. -/
theorem start_faults :
    (∃ rate tick, Rational.ofTerms 2305843009213693952 1 = .ok rate ∧ Rational.ofTerms 1 30 = .ok tick ∧
      (startPooled .boundless ⟨.top, "0001", 0⟩ ⟨.column, ⟨rate, ⟨tick⟩⟩⟩).result = .error (.fault .reciprocalOfZero)) ∧
      ∃ rate tick, Rational.ofTerms 1099511627776 1 = .ok rate ∧ Rational.ofTerms 8388608 1 = .ok tick ∧
        (startPooled .boundless .default ⟨.column, ⟨rate, ⟨tick⟩⟩⟩).result = .error (.fault .negateOverflow) :=
  ⟨⟨⟨2305843009213693952, 1⟩, ⟨1, 30⟩, rfl, rfl, rfl⟩, ⟨1099511627776, 1⟩, ⟨8388608, 1⟩, rfl, rfl, rfl⟩

end Restorer

end InverseTelecine
