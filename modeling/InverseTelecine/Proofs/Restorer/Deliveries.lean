import InverseTelecine.Proofs.Restorer.Exchanges

namespace InverseTelecine

/-- What a frame shows and says of itself, but for its presentation time. -/
structure Look where
  layout : Layout
  rows : Visible
  space : ColorSpace
  range : ColorRange
  dts : Timestamp
  duration : Duration
  flags : FlagSet
  order : Int

def Frame.look (f : Frame) : Look :=
  ⟨f.layout, f.picture.visible, f.picture.space, f.picture.range, f.dts, f.duration, f.flags, f.order⟩

/-- The look of a frame that shows `rows` with the properties of `input`, its duration counted in `base`. -/
def Frame.dressed (input : Frame) (l : Layout) (base : TimeBase) (rows : Visible) : Look :=
  ⟨l, rows, input.picture.space, input.picture.range, input.dts, ⟨input.duration.ticks, base⟩, input.flags, input.order⟩

def Clock.ahead (c : Clock) (frames : Nat) : Clock := { c with emitted := c.emitted + frames }

theorem Clock.ahead_ahead (c : Clock) (a b : Nat) : (c.ahead a).ahead b = c.ahead (a + b) := by
  rw [ahead, ahead, ahead, Nat.add_assoc]

theorem Picture.Fits.of_paste {buffer slot picture : Picture} {l other : Layout} (hb : buffer.Fits other)
    (hs : slot.Fits l) (pasted : (buffer.paste slot).picture = .ok picture) :
    buffer.Fits l ∧ picture.Fits l ∧ picture.visible = slot.visible := by
  have same : other = l := by
    apply Decidable.byContradiction
    intro differs
    rw [Picture.paste, hb.layout, hs.layout, if_pos differs] at pasted
    cases pasted
  subst same
  obtain ⟨out, copied, fits, rows⟩ := hb.paste hs
  rw [copied] at pasted
  obtain rfl : out = picture := Except.ok.inj pasted
  exact ⟨hb, fits, rows⟩

namespace Exchange

def Formed : Exchange → Prop
  | granted buffer => ∃ l, buffer.Fits l
  | _ => True

theorem Supplied.formed {l : Layout} {x : Exchange} (h : x.Supplied l) : x.Formed := by
  cases x with
  | granted buffer => exact ⟨l, h⟩
  | denied cause => exact True.intro
  | handed frame answer => exact True.intro

def frames (passed : List Exchange) : List Frame := passed.filterMap frame?

theorem frames_append (front back : List Exchange) : frames (front ++ back) = frames front ++ frames back :=
  List.filterMap_append

end Exchange

/-- How an emission can go: what passes in it, its answer, and the clock after it. -/
inductive Emits (slot : Picture) (input : Frame) (clock : Clock) :
    List Exchange → Except (Stop FilterError) Unit → Clock → Prop where
  | denied (cause : MediaError) :
    Emits slot input clock [.denied cause] (.error (.error (.noBuffer cause.message))) clock
  | misfit {buffer : Picture} {stop : Stop MediaError} (unlike : (buffer.paste slot).picture = .error stop) :
    Emits slot input clock [.granted buffer] (.error (stop.map .media)) clock
  | handed {buffer picture : Picture} (pasted : (buffer.paste slot).picture = .ok picture)
    (answer : Except FilterError Unit) :
    Emits slot input clock [.granted buffer, .handed (clock.stamp picture input) answer]
      (answer.mapError .error) (clock.ahead 1)

theorem emit_emits {σ : Type} (ends : Endpoints σ) (slot : Picture) (input : Frame) (clock : Clock)
    (s : σ × List Exchange) :
    ∃ passed, (emit ends.recorded slot input clock s).state.2 = s.2 ++ passed ∧
      Emits slot input clock passed (emit ends.recorded slot input clock s).result
        (emit ends.recorded slot input clock s).clock := by
  simp only [emit, Endpoints.recorded]
  cases ends.take s.1 with
  | mk answer next =>
    cases answer with
    | error cause => exact ⟨_, rfl, .denied cause⟩
    | ok buffer =>
      simp only
      cases pasted : (buffer.paste slot).picture with
      | error stop => exact ⟨_, rfl, .misfit pasted⟩
      | ok picture => exact ⟨_, List.append_assoc _ _ _, .handed pasted _⟩

namespace Emits

variable {slot : Picture} {input : Frame} {clock next : Clock} {passed : List Exchange}
  {answer : Except (Stop FilterError) Unit} {l : Layout}

theorem clock_eq (h : Emits slot input clock passed answer next) :
    next = clock.ahead (Exchange.frames passed).length := by
  cases h with
  | denied cause => rfl
  | misfit unlike => rfl
  | handed pasted answer => rfl

theorem length_of_ok (h : Emits slot input clock passed answer next) (ok : answer = .ok ()) :
    (Exchange.frames passed).length = 1 := by
  cases h with
  | denied cause => cases ok
  | misfit unlike => cases ok
  | handed pasted answer => rfl

theorem length_le (h : Emits slot input clock passed answer next) : (Exchange.frames passed).length ≤ 1 := by
  cases h with
  | denied cause => exact Nat.zero_le 1
  | misfit unlike => exact Nat.zero_le 1
  | handed pasted answer => exact Nat.le_refl 1

theorem times (h : Emits slot input clock passed answer next) :
    (Exchange.frames passed).map (·.pts) =
      (List.range (Exchange.frames passed).length).map fun n => (clock.ahead n).nextStamp := by
  cases h with
  | denied cause => rfl
  | misfit unlike => rfl
  | handed pasted answer => rfl

theorem ok_iff (h : Emits slot input clock passed answer next) (fits : slot.Fits l) (formed : ∀ x ∈ passed, x.Formed) :
    answer = .ok () ↔ ∀ x ∈ passed, x.Succeeds l := by
  cases h with
  | denied cause => simp [Exchange.Succeeds]
  | @misfit buffer stop unlike =>
    constructor
    · intro ok
      cases ok
    · intro quiet
      have granted : buffer.Fits l := quiet (.granted buffer) List.mem_cons_self
      obtain ⟨picture, pasted, _⟩ := granted.paste fits
      rw [pasted] at unlike
      cases unlike
  | @handed buffer picture pasted answer =>
    obtain ⟨other, granted⟩ := formed _ List.mem_cons_self
    have own := (granted.of_paste fits pasted).1
    constructor
    · intro ok x member
      rcases List.mem_pair.mp member with rfl | rfl
      · exact own
      · cases answer with
        | ok _ => rfl
        | error e => cases ok
    · intro quiet
      have taken : answer = .ok () := quiet (.handed (clock.stamp picture input) answer) (by simp)
      rw [taken]
      rfl

theorem looks (h : Emits slot input clock passed answer next) (fits : slot.Fits l) (formed : ∀ x ∈ passed, x.Formed) :
    (Exchange.frames passed).map Frame.look <+: [input.dressed l clock.base slot.visible] := by
  cases h with
  | denied cause => exact List.nil_prefix
  | misfit unlike => exact List.nil_prefix
  | @handed buffer picture pasted answer =>
    obtain ⟨other, granted⟩ := formed _ List.mem_cons_self
    obtain ⟨_, pictureFits, rows⟩ := granted.of_paste fits pasted
    refine ⟨[], ?_⟩
    show [input.dressed picture.layout clock.base picture.visible] = [input.dressed l clock.base slot.visible]
    rw [pictureFits.layout, rows]

end Emits

/-- How the emission of slots in turn can go; the first that fails is the last. -/
inductive Delivers (input : Frame) :
    List Picture → Clock → List Exchange → Except (Stop FilterError) Unit → Clock → Prop where
  | done (clock : Clock) : Delivers input [] clock [] (.ok ()) clock
  | stopped {slot : Picture} {slots : List Picture} {clock next : Clock} {passed : List Exchange}
    {stop : Stop FilterError} (emits : Emits slot input clock passed (.error stop) next) :
    Delivers input (slot :: slots) clock passed (.error stop) next
  | more {slot : Picture} {slots : List Picture} {clock between next : Clock} {passed rest : List Exchange}
    {answer : Except (Stop FilterError) Unit} (emits : Emits slot input clock passed (.ok ()) between)
    (delivers : Delivers input slots between rest answer next) :
    Delivers input (slot :: slots) clock (passed ++ rest) answer next

namespace Delivers

variable {slots : List Picture} {input : Frame} {clock next : Clock} {passed : List Exchange}
  {answer : Except (Stop FilterError) Unit} {l : Layout}

theorem clock_eq (h : Delivers input slots clock passed answer next) :
    next = clock.ahead (Exchange.frames passed).length := by
  induction h with
  | done clock => rfl
  | stopped emits => exact emits.clock_eq
  | more emits _ ih =>
    rw [ih, emits.clock_eq, Clock.ahead_ahead, Exchange.frames_append, List.length_append]

theorem times (h : Delivers input slots clock passed answer next) :
    (Exchange.frames passed).map (·.pts) =
      (List.range (Exchange.frames passed).length).map fun n => (clock.ahead n).nextStamp := by
  induction h with
  | done clock => rfl
  | stopped emits => exact emits.times
  | more emits _ ih =>
    rw [Exchange.frames_append, List.map_append, List.length_append, List.range_add, List.map_append, List.map_map,
      emits.times, ih, emits.clock_eq]
    simp only [Function.comp_def, Clock.ahead_ahead]

theorem length_of_ok (h : Delivers input slots clock passed answer next) (ok : answer = .ok ()) :
    (Exchange.frames passed).length = slots.length := by
  induction h with
  | done clock => rfl
  | stopped emits => cases ok
  | more emits _ ih =>
    rw [Exchange.frames_append, List.length_append, emits.length_of_ok rfl, ih ok, List.length_cons, Nat.add_comm]

theorem length_le (h : Delivers input slots clock passed answer next) :
    (Exchange.frames passed).length ≤ slots.length := by
  induction h with
  | done clock => exact Nat.le_refl 0
  | stopped emits => exact Nat.le_trans emits.length_le (Nat.le_add_left 1 _)
  | more emits _ ih =>
    have first := emits.length_le
    rw [Exchange.frames_append, List.length_append, List.length_cons]
    omega

theorem ok_iff (h : Delivers input slots clock passed answer next) (fits : ∀ p ∈ slots, p.Fits l)
    (formed : ∀ x ∈ passed, x.Formed) : answer = .ok () ↔ ∀ x ∈ passed, x.Succeeds l := by
  induction h with
  | done clock => simp
  | stopped emits => exact emits.ok_iff (fits _ List.mem_cons_self) formed
  | more emits _ ih =>
    rw [List.forall_mem_append] at formed ⊢
    rw [ih (fun p member => fits p (List.mem_cons_of_mem _ member)) formed.2, iff_and_self]
    intro _
    exact (emits.ok_iff (fits _ List.mem_cons_self) formed.1).mp rfl

theorem looks (h : Delivers input slots clock passed answer next) (fits : ∀ p ∈ slots, p.Fits l)
    (formed : ∀ x ∈ passed, x.Formed) :
    (Exchange.frames passed).map Frame.look <+: slots.map fun p => input.dressed l clock.base p.visible := by
  induction h with
  | done clock => exact List.nil_prefix
  | stopped emits =>
    exact (emits.looks (fits _ List.mem_cons_self) formed).trans ((List.prefix_append _ _))
  | more emits _ ih =>
    rw [List.forall_mem_append] at formed
    have first := emits.looks (fits _ List.mem_cons_self) formed.1
    have rest := ih (fun p member => fits p (List.mem_cons_of_mem _ member)) formed.2
    have whole := first.eq_of_length (by rw [List.length_map, emits.length_of_ok rfl]; rfl)
    rw [emits.clock_eq] at rest
    rw [Exchange.frames_append, List.map_append, whole]
    exact (List.prefix_append_right_inj _).mpr rest

theorem shown_initial (h : Delivers input slots clock passed answer next) (fits : ∀ p ∈ slots, p.Fits l)
    (formed : ∀ x ∈ passed, x.Formed) : Exchange.shown passed <+: slots.map Picture.visible := by
  have rows := (h.looks fits formed).map Look.rows
  rw [List.map_map, List.map_map] at rows
  exact rows

end Delivers

namespace Restorer

variable {σ : Type} {ends : Endpoints σ}

theorem emitSlots_delivers (ends : Endpoints σ) (input : Frame) (slots : List Picture) (r : Restorer)
    (s : σ × List Exchange) :
    ∃ passed, (emitSlots ends.recorded input slots r s).state.2 = s.2 ++ passed ∧
      Delivers input slots r.clock passed (emitSlots ends.recorded input slots r s).result
        (emitSlots ends.recorded input slots r s).restorer.clock := by
  induction slots generalizing r s with
  | nil => exact ⟨[], (List.append_nil _).symm, .done r.clock⟩
  | cons slot slots ih =>
    obtain ⟨passed, record, emits⟩ := emit_emits ends slot input r.clock s
    simp only [emitSlots]
    cases done : (emit ends.recorded slot input r.clock s).result with
    | error stop =>
      rw [done] at emits
      exact ⟨passed, record, .stopped emits⟩
    | ok _ =>
      rw [done] at emits
      obtain ⟨rest, later, delivers⟩ := ih
        { r with
          clock := (emit ends.recorded slot input r.clock s).clock
          tally := { r.tally with emitted := (emit ends.recorded slot input r.clock s).clock.emitted } }
        (emit ends.recorded slot input r.clock s).state
      refine ⟨passed ++ rest, ?_, .more emits delivers⟩
      simp only
      rw [later, record, List.append_assoc]

theorem emitSlots_restorer (ends : Endpoints σ) (input : Frame) (slots : List Picture) {r : Restorer}
    (s : σ) (counted : r.tally.emitted = r.clock.emitted) :
    ∃ clock, (emitSlots ends input slots r s).restorer =
      { r with
        clock
        tally := { r.tally with emitted := clock.emitted } } := by
  induction slots generalizing r s with
  | nil =>
    refine ⟨r.clock, ?_⟩
    rw [← counted]
    rfl
  | cons slot slots ih =>
    simp only [emitSlots]
    cases (emit ends slot input r.clock s).result with
    | error stop => exact ⟨_, rfl⟩
    | ok _ => exact ih _ rfl

end Restorer

end InverseTelecine
