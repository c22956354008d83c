import InverseTelecine.Proofs.Cadence.TrailingZeros
import InverseTelecine.Proofs.Restorer.Failures
import InverseTelecine.Proofs.Restorer.Readings

namespace InverseTelecine

namespace Cadence

theorem firstNonzero_le {bound : Nat} {digits : List Nat} (small : ∀ d ∈ digits, d ≤ bound) :
    (firstNonzero digits).1 ≤ bound := by
  induction digits with
  | nil => exact Nat.zero_le bound
  | cons d digits ih =>
    rw [List.forall_mem_cons] at small
    cases d with
    | zero => exact ih small.2
    | succ d => exact small.1

end Cadence

namespace RowRouter

/-- Digits are at most nine, so no slot leaves more than eight fields to a cut, or seven to skip. -/
structure Bounded (m : RowRouter) : Prop where
  digits : ∀ d ∈ m.digits, d ≤ 9
  inside : m.position < m.digits.length
  carry : m.carry ≤ 8
  skip : m.skip ≤ 7
  due : m.held.isSome → m.skip = 0

variable {m next : RowRouter} {input : Visible} {reads : List Nat} {shown : List Visible}

theorem start_bounded {digits : List Nat} {start : Nat} (small : ∀ d ∈ digits, d ≤ 9)
    (inside : start < Cadence.fieldCount digits) (first : FieldParity) :
    (RowRouter.start digits start first).Bounded := by
  rw [start_phase inside]
  exact ⟨small, Cadence.phaseAt_lt inside, Cadence.phaseAt_carry_le small inside, Nat.zero_le 7, fun _ => rfl⟩

namespace Bounded

theorem scan (h : m.Bounded) : (m.scan 0).1 ≤ 9 ∧ (m.scan 0).2.Bounded := by
  have filled : m.digits ≠ [] := List.ne_nil_of_length_pos (Nat.zero_lt_of_lt h.inside)
  rw [scan_zero]
  refine ⟨Cadence.firstNonzero_le fun d member => h.digits d (List.mem_of_mem_drop member), ?_⟩
  exact ⟨h.digits, Cadence.nextPosition_lt filled m.position, h.carry, h.skip, h.due⟩

theorem taken (h : m.Bounded) : m.taken.1 ≤ 9 ∧ m.taken.2.Bounded := by
  have emptied : Bounded { m with carry := 0 } := ⟨h.digits, h.inside, Nat.zero_le 8, h.skip, h.due⟩
  rw [RowRouter.taken]
  by_cases spent : m.carry = 0
  · rw [spent]
    exact emptied.scan
  · rw [scan_of_ne_zero emptied.inside spent]
    exact ⟨Nat.le_succ_of_le h.carry, emptied⟩

theorem cover (h : m.Bounded) {fields : Nat} (small : fields ≤ 9) (input : Visible) :
    (m.cover input fields).Bounded := by
  unfold RowRouter.cover
  split
  · exact ⟨h.digits, h.inside, h.carry, Nat.zero_le 7, fun _ => rfl⟩
  · exact ⟨h.digits, h.inside, h.carry, Nat.sub_le_sub_right small 2, fun full => by cases full⟩

theorem turn (h : m.Bounded) (turn : Turn m input reads shown next) : next.Bounded := by
  have first := h.taken
  have second := first.2.scan
  cases turn with
  | duplicate more =>
    refine ⟨h.digits, h.inside, h.carry, Nat.le_trans (Nat.sub_le _ _) h.skip, ?_⟩
    intro full
    have none := h.due full
    omega
  | donor one => exact ⟨h.digits, h.inside, h.carry, Nat.zero_le 7, fun _ => rfl⟩
  | empty due read =>
    rw [read] at first
    exact first.2
  | fresh due read some free =>
    rw [read] at first
    exact first.2.cover first.1 input
  | woven due read two full =>
    rw [read] at first
    exact first.2.cover (Nat.le_trans (Nat.sub_le _ _) first.1) input
  | last due read full again some =>
    rw [read, again] at second
    exact second.2.cover second.1 input
  | lost due read full again =>
    rw [read, again] at second
    exact ⟨second.2.digits, second.2.inside, second.2.carry, Nat.zero_le 7, fun _ => rfl⟩

end Bounded

theorem Turn.length_shown (h : Turn m input reads shown next) : shown.length = reads.countP (0 < ·) := by
  cases h with
  | duplicate more => rfl
  | donor one => rfl
  | empty due read => rfl
  | fresh due read some free => simp [some]
  | woven due read two full => simp [Nat.lt_of_lt_of_le Nat.zero_lt_two two]
  | last due read full again some => simp [some]
  | lost due read full again => rfl

theorem reads_of_two (two : m.reads.countP (0 < ·) = 2) : m.held.isSome ∧ m.taken.1 = 1 := by
  unfold reads at two
  split at two
  · cases two
  · split at two
    next last => exact ⟨last.2, last.1⟩
    next =>
      have most := List.countP_le_length (p := fun n : Nat => 0 < n) (l := [m.taken.1])
      rw [two] at most
      exact absurd most (Nat.not_succ_le_self 1)

theorem counted_keeps (m : RowRouter) (t : Tally) :
    (m.counted t).accepted = t.accepted ∧ (m.counted t).unpaired = t.unpaired := by
  unfold counted
  repeat' split
  all_goals exact ⟨rfl, rfl⟩

end RowRouter

section fails

variable {l : Layout} {slot : Picture} {slots : List Picture} {input : Frame} {clock next : Clock}
  {passed : List Exchange} {stop : Stop FilterError}

/-- What was denied or refused among what passed, and the error that it makes. -/
inductive Exchange.Causes (passed : List Exchange) : Stop FilterError → Prop where
  | denied {cause : MediaError} (member : denied cause ∈ passed) : Causes passed (.error (.noBuffer cause.message))
  | refused {frame : Frame} {error : FilterError} (member : handed frame (.error error) ∈ passed) :
    Causes passed (.error error)

theorem Emits.causes (h : Emits slot input clock passed (.error stop) next) (fits : slot.Fits l)
    (supplied : ∀ x ∈ passed, x.Supplied l) : Exchange.Causes passed stop := by
  generalize failed : Except.error stop = answer at h
  cases h with
  | denied cause =>
    cases failed
    exact .denied List.mem_cons_self
  | @misfit buffer stop unlike =>
    have granted : buffer.Fits l := supplied (.granted buffer) List.mem_cons_self
    obtain ⟨picture, pasted, _⟩ := granted.paste fits
    rw [pasted] at unlike
    cases unlike
  | handed pasted answer =>
    cases answer with
    | ok _ => cases failed
    | error e =>
      cases failed
      exact .refused (List.mem_cons_of_mem _ List.mem_cons_self)

theorem Exchange.Causes.append {front back : List Exchange} (h : Causes back stop) : Causes (front ++ back) stop := by
  cases h with
  | denied member => exact .denied (List.mem_append_right front member)
  | refused member => exact .refused (List.mem_append_right front member)

theorem Delivers.causes (h : Delivers input slots clock passed (.error stop) next) (fits : ∀ p ∈ slots, p.Fits l)
    (supplied : ∀ x ∈ passed, x.Supplied l) : Exchange.Causes passed stop := by
  generalize failed : Except.error stop = answer at h
  induction h with
  | done clock => cases failed
  | stopped emits =>
    cases failed
    exact emits.causes (fits _ List.mem_cons_self) supplied
  | more emits _ ih =>
    rw [List.forall_mem_append] at supplied
    exact (ih (fun p member => fits p (List.mem_cons_of_mem _ member)) supplied.2 failed).append

end fails

namespace Restorer

theorem dropUnpaired_eq_ok {len : Nat} {given : Nat × List Event} {r r' : Restorer}
    (done : dropUnpaired len r = .ok given r') :
    given.2 = [] ∨ given.2 = [.unpairedDropped] ∧ r'.tally.unpaired = r.tally.unpaired + 1 := by
  rw [dropUnpaired, bind_ok (isFull_run r)] at done
  split at done
  · cases done
    exact .inr ⟨rfl, rfl⟩
  · cases done
    exact .inl rfl

theorem showSlots_notice {input : Picture} {n : Nat} {events : List Event} {r r' : Restorer}
    (done : showSlots input r = .ok (n, events) r') (said : .unpairedDropped ∈ events) :
    r'.tally.unpaired = r.tally.unpaired + 1 := by
  obtain ⟨len, r₁, read, done⟩ := bind_eq_ok done
  rw [← takeSlot_keeps.tally read]
  split at done
  · cases done
    cases List.mem_singleton.mp said
  · obtain ⟨first, r₂, donor, done⟩ := bind_eq_ok done
    obtain ⟨rest, r₃, run, done⟩ := bind_eq_ok done
    obtain ⟨settled, r₄, drop, done⟩ := bind_eq_ok done
    rw [← (showDonor_keeps _).tally donor, ← (showInput_keeps _ _ _).tally run]
    cases done
    rcases dropUnpaired_eq_ok drop with quiet | ⟨_, counted⟩
    · rw [quiet] at said
      cases List.mem_singleton.mp said
    · exact counted

theorem step_notice {input : Picture} {n : Nat} {events : List Event} {r r' : Restorer}
    (done : step input r = .ok (n, events) r') (said : .unpairedDropped ∈ events) :
    r'.tally.unpaired = r.tally.unpaired + 1 := by
  obtain ⟨_, _, got, done⟩ := bind_eq_ok done
  cases got
  simp only at done
  split at done
  · cases done
    cases List.mem_singleton.mp said
  · split at done
    · obtain ⟨_, _, _, done⟩ := bind_eq_ok done
      cases done
      cases List.mem_singleton.mp said
    · exact showSlots_notice done said

variable {σ : Type} {ends : Endpoints σ} {options : Options} {stream : InputStream} {c : Cadence}
  {retiming : Retiming} {r : Restorer} {m : RowRouter}

theorem Reached.cadence (reached : Reached options stream r) : ∃ c, options.cadence = .ok c := by
  induction reached with
  | started started => exact started.cadence
  | called _ _ _ _ ih => exact ih
  | rewound _ ih => exact ih

theorem Reached.bounded (reached : Reached options stream r) (accepted : options.cadence = .ok c) :
    ∃ retiming m, Serves options stream c retiming r m ∧ m.Bounded ∧ r.tally.unpaired = 0 := by
  have parsed := Options.cadence_eq_ok accepted
  have start := RowRouter.start_bounded parsed.le_nine parsed.inside options.first
  induction reached with
  | started started =>
    obtain ⟨retiming, _, serves⟩ := started.serves accepted
    obtain ⟨_, _, _, _, rfl, _⟩ := started.eq_fresh accepted
    exact ⟨retiming, _, serves, start, rfl⟩
  | @called r _ _ ends input formed s ih =>
    obtain ⟨retiming, m, serves, bounded, paired⟩ := ih
    by_cases own : input.layout = stream.layout
    · rw [own] at formed
      obtain ⟨_, serves', tally⟩ := serves.call formed ends s
      refine ⟨retiming, _, serves', bounded.turn (m.step_turn input.picture.visible), ?_⟩
      rw [tally]
      exact (m.counted_keeps _).2.trans paired
    · obtain ⟨error, _, unchanged⟩ := serves.call_of_other own ends s
      rw [unchanged]
      exact ⟨retiming, m, serves, bounded, paired⟩
  | rewound _ ih =>
    obtain ⟨retiming, m, serves, _, _⟩ := ih
    exact ⟨retiming, _, serves.rewind accepted, start, rfl⟩

structure Sound (r : Restorer) : Prop where
  inside : r.cadence.position < r.cadence.digits.length
  carry : r.cadence.carry ≤ 8
  skip : r.skip ≤ 7
  due : r.donor.full = true → r.skip = 0
  paired : r.tally.unpaired = 0

theorem Follows.sound {l : Layout} (h : Follows l r m) (bounded : m.Bounded) (paired : r.tally.unpaired = 0) :
    r.Sound where
  inside := by
    rw [h.position, h.digits]
    exact bounded.inside
  carry := h.carry ▸ bounded.carry
  skip := h.skip ▸ bounded.skip
  due := by
    rw [h.isFull, h.skip]
    exact bounded.due
  paired := paired

/-- In every state that is reached the bounds hold and no field has been left without its pair. From it any input
of the stream completes a picture for each slot with fields that is read, two only behind a donor whose last field
is read; and the call fails only if a buffer is denied or a frame refused. -/
theorem reached_sound (reached : Reached options stream r) :
    r.Sound ∧ ∀ {input : Frame}, input.picture.Fits stream.layout →
      let due := r.slotReads.countP (0 < ·)
      due ≤ 2 ∧ (due = 2 → r.donor.full = true ∧ r.cadence.takeSlot.1 = 1) ∧
        (∃ events r', step input.picture (r.accept input) = .ok (due, events) r' ∧ .unpairedDropped ∉ events) ∧
        ∀ {σ : Type} (ends : Endpoints σ) (s : σ),
          let d := call ends r input s
          d.frames.length ≤ due ∧
            (d.Supplied stream.layout →
              d.result = .ok due ∨ ∃ stop, d.result = .error stop ∧ Exchange.Causes d.exchanges stop) := by
  obtain ⟨c, accepted⟩ := reached.cadence
  obtain ⟨retiming, m, serves, bounded, paired⟩ := reached.bounded accepted
  refine ⟨serves.follows.sound bounded paired, ?_⟩
  intro input fits
  have count := (m.step_turn input.picture.visible).length_shown
  rw [serves.follows.reads, ← count]
  refine ⟨m.length_step_le _, ?_, ?_, ?_⟩
  · intro two
    rw [count] at two
    rw [serves.follows.isFull, serves.follows.taken.1]
    exact RowRouter.reads_of_two two
  · obtain ⟨events, r', stepped, follows, _⟩ := (serves.follows.accept input).step fits
    refine ⟨events, r', stepped, ?_⟩
    intro said
    have raised := step_notice stepped said
    rw [← after_of_ok stepped, (serves.follows.accept input).step_tally fits, (m.counted_keeps _).2] at raised
    omega
  · intro σ ends s
    obtain ⟨⟨slots, answer, delivered⟩, _, _⟩ := serves.call fits ends s
    have length : slots.length = (m.step input.picture.visible).1.length := by
      rw [← delivered.shows, List.length_map]
    refine ⟨length ▸ delivered.delivers.length_le, ?_⟩
    intro supplied
    rw [delivered.result]
    cases answer with
    | ok _ => exact .inl rfl
    | error stop => exact .inr ⟨stop, rfl, delivered.delivers.causes delivered.fits supplied⟩

theorem reached_sound_columns :
    ∃ r, (start (Pool.supply .boundless) ⟨.top, "11", 0⟩ .columns Pool.columns).result = .ok r ∧
      let q := (call Endpoints.fickle r (.ofPicture (.column 0 1)) 1).restorer
      let d := call (Pool.supply .boundless).collecting q (.ofPicture (.column 2 3)) (Pool.columns, [])
      q.Sound ∧ q.slotReads.countP (0 < ·) = 2 ∧ q.donor.full = true ∧ q.cadence.takeSlot.1 = 1 ∧ d.frames.length ≤ 2 ∧
        (d.result = .ok 2 ∨ ∃ stop, d.result = .error stop ∧ Exchange.Causes d.exchanges stop) := by
  obtain ⟨r, built, read⟩ :
      ∃ r, (start (Pool.supply .boundless) ⟨.top, "11", 0⟩ .columns Pool.columns).result = .ok r ∧
        (call Endpoints.fickle r (.ofPicture (.column 0 1)) 1).restorer.slotReads.countP (0 < ·) = 2 := ⟨_, rfl, rfl⟩
  have reached : Reached ⟨.top, "11", 0⟩ .columns (call Endpoints.fickle r (.ofPicture (.column 0 1)) 1).restorer :=
    .called (.started (columns_started built)) Endpoints.fickle (Picture.column_fits 0 1) 1
  obtain ⟨sound, proceeds⟩ := reached_sound reached
  have next : (Frame.ofPicture (.column 2 3)).picture.Fits .column := Picture.column_fits 2 3
  have quiet := columns_undisturbed (call Endpoints.fickle r (.ofPicture (.column 0 1)) 1).restorer
    (Frame.columns [(2, 3)]) _ List.mem_cons_self
  obtain ⟨_, two, _, calls⟩ := proceeds next
  rw [read] at two calls
  obtain ⟨full, one⟩ := two rfl
  obtain ⟨few, ends⟩ := calls (Pool.supply .boundless).collecting (Pool.columns, [])
  exact ⟨r, built, sound, read, full, one, few, ends quiet.supplied⟩

end Restorer

end InverseTelecine
