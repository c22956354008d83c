import InverseTelecine.Proofs.Media.Pools
import InverseTelecine.Proofs.Restorer.Safety
import InverseTelecine.Proofs.Restorer.Starting

namespace InverseTelecine

structure Release where
  index : Nat
  reuse : Picture → Picture
  fits : ∀ {p : Picture} {l : Layout}, p.Fits l → (reuse p).Fits l

def Release.oldest : Release := ⟨0, id, id⟩

/-- Something that takes or refuses frames, and gives buffers back as it does. -/
structure Consumer (δ : Type) where
  receive : δ → Frame → Except FilterError Unit × δ × List Release

structure Circulation (δ : Type) where
  pool : Pool
  out : List Picture
  mind : δ
  /-- The most that were out at once. From when its buffer is asked for, a frame on its way counts. -/
  peak : Nat

namespace Circulation

variable {δ : Type}

def new (pool : Pool) (mind : δ) : Circulation δ := ⟨pool, [], mind, 0⟩

def release (c : Circulation δ) (x : Release) : Circulation δ :=
  match c.out[x.index]? with
  | none => c
  | some picture => { c with pool := c.pool.giveBack (x.reuse picture), out := c.out.eraseIdx x.index }

def releaseAll (c : Circulation δ) (releases : List Release) : Circulation δ := releases.foldl release c

end Circulation

/-- Buffers come from the pool. A frame stays with the consumer, whatever it answers, until it is released. -/
def Consumer.circulating {δ : Type} (memory : Memory) (consumer : Consumer δ) : Endpoints (Circulation δ) where
  layout c := c.pool.layout
  take c :=
    ((c.pool.take memory).1, { c with pool := (c.pool.take memory).2, peak := max c.peak (c.out.length + 1) })
  push c frame :=
    let (answer, mind, releases) := consumer.receive c.mind frame
    (answer, { c with out := c.out ++ [frame.picture], mind }.releaseAll releases)

def Exchange.Stocked (l : Layout) : Exchange → Prop
  | granted buffer => buffer.Fits l
  | denied _ => False
  | handed _ _ => True

theorem Exchange.Stocked.supplied {l : Layout} {x : Exchange} (h : x.Stocked l) : x.Supplied l := by
  cases x with
  | granted buffer => exact h
  | denied cause => exact h.elim
  | handed frame answer => exact True.intro

namespace Circulation

variable {δ : Type} {c : Circulation δ} {l : Layout} {m : Nat}

/-- Of the buffers that were made three are in the restorer, and all others idle or out; and more were made only when
more were out. -/
structure Balanced (l : Layout) (m : Nat) (c : Circulation δ) : Prop where
  layout : c.pool.layout = l
  room : m ≤ c.pool.capacity
  enough : ∀ n ∈ c.pool.limit, 3 + m ≤ n
  idle : ∀ p ∈ c.pool.idle, p.Fits l
  out : ∀ p ∈ c.out, p.Fits l
  account : c.pool.made = 3 + c.pool.idle.length + c.out.length
  made_le : c.pool.made ≤ 3 + c.peak

theorem peak_release (c : Circulation δ) (x : Release) : (c.release x).peak = c.peak := by
  unfold release
  split <;> rfl

theorem peak_releaseAll (c : Circulation δ) (releases : List Release) : (c.releaseAll releases).peak = c.peak := by
  induction releases generalizing c with
  | nil => rfl
  | cons x releases ih => exact (ih (c.release x)).trans (c.peak_release x)

namespace Balanced

theorem release (h : c.Balanced l m) (restrained : c.peak ≤ m) (x : Release) : (c.release x).Balanced l m := by
  unfold Circulation.release
  split
  · exact h
  next picture found =>
    obtain ⟨inside, rfl⟩ := List.getElem?_eq_some_iff.mp found
    have fits := x.fits (h.out _ (List.getElem_mem inside))
    have vacant : c.pool.idle.length < c.pool.capacity := by
      have account := h.account
      have made := h.made_le
      have room := h.room
      omega
    have kept : c.pool.giveBack (x.reuse c.out[x.index]) =
        { c.pool with idle := c.pool.idle ++ [x.reuse c.out[x.index]] } :=
      if_pos ⟨vacant, fits.layout.trans h.layout.symm⟩
    rw [kept]
    refine ⟨h.layout, h.room, h.enough, ?_, ?_, ?_, h.made_le⟩
    · exact List.forall_mem_append.mpr ⟨h.idle, List.forall_mem_singleton.mpr fits⟩
    · exact fun p member => h.out p (List.mem_of_mem_eraseIdx member)
    · have account := h.account
      simp only [List.length_append, List.length_singleton, List.length_eraseIdx, if_pos inside]
      omega

theorem releaseAll (h : c.Balanced l m) (restrained : c.peak ≤ m) (releases : List Release) :
    (c.releaseAll releases).Balanced l m := by
  induction releases generalizing c with
  | nil => exact h
  | cons x releases ih => exact ih (h.release restrained x) (by rwa [c.peak_release x])

/-- One more may be out, so there is a buffer for it: an idle one, or else as few were made as are in the restorer
and out, and another may be made. -/
theorem lend (h : c.Balanced l m) {memory : Memory} {blank : Picture} (makes : Picture.make memory l = .ok blank)
    (spare : c.out.length < m) :
    ∃ buffer pool, c.pool.take memory = (.ok buffer, pool) ∧ buffer.Fits l ∧ ∀ (picture : Picture) (mind : δ),
      picture.Fits l →
        Balanced l m ⟨pool, c.out ++ [picture], mind, max c.peak (c.out.length + 1)⟩ := by
  have account := h.account
  have made := h.made_le
  have outFits : ∀ picture : Picture, picture.Fits l → ∀ p ∈ c.out ++ [picture], p.Fits l :=
    fun _ fits => List.forall_mem_append.mpr ⟨h.out, List.forall_mem_singleton.mpr fits⟩
  cases waiting : c.pool.idle with
  | cons first rest =>
    have idle := h.idle
    rw [waiting] at account idle
    rw [List.forall_mem_cons] at idle
    refine ⟨first, { c.pool with idle := rest }, by rw [Pool.take, waiting], idle.1, fun picture mind fits => ?_⟩
    refine ⟨h.layout, h.room, h.enough, idle.2, outFits picture fits, ?_, ?_⟩
    · simp only [List.length_append, List.length_cons, List.length_nil] at account ⊢
      omega
    · simp only
      omega
  | nil =>
    rw [waiting, List.length_nil] at account
    have below : ∀ n ∈ c.pool.limit, c.pool.made < n := by
      intro n member
      have enough := h.enough n member
      omega
    have fresh := Pool.take_of_drained waiting (by rw [h.layout, makes]) below
    have fits : blank.Fits l := Picture.make_eq_ok makes ▸ Picture.blank_fits l
    refine ⟨blank, _, fresh, fits, fun picture mind fits => ?_⟩
    refine ⟨h.layout, h.room, h.enough, h.idle, outFits picture fits, ?_, ?_⟩
    · simp only [waiting, List.length_append, List.length_cons, List.length_nil]
      omega
    · simp only
      omega

end Balanced

def Holds (l : Layout) (m : Nat) (s : Circulation δ × List Exchange) : Prop :=
  s.1.peak ≤ m → s.1.Balanced l m ∧ ∀ x ∈ s.2, x.Stocked l

end Circulation

section emission

variable {δ : Type} {memory : Memory} (consumer : Consumer δ) {l : Layout} {m : Nat} {blank : Picture}
  (makes : Picture.make memory l = .ok blank)

theorem peak_emit (memory : Memory) (slot : Picture) (input : Frame) (clock : Clock)
    (s : Circulation δ × List Exchange) :
    (emit (consumer.circulating memory).recorded slot input clock s).state.1.peak = max s.1.peak (s.1.out.length + 1) := by
  simp only [emit, Endpoints.recorded, Consumer.circulating]
  cases (s.1.pool.take memory).1 with
  | error cause => rfl
  | ok buffer =>
    simp only
    cases (buffer.paste slot).picture with
    | error stop => rfl
    | ok picture => exact Circulation.peak_releaseAll _ _

include makes

theorem Circulation.Holds.emit {slot : Picture} (fits : slot.Fits l) (input : Frame) (clock : Clock)
    {s : Circulation δ × List Exchange} (h : Holds l m s) :
    Holds l m (InverseTelecine.emit (consumer.circulating memory).recorded slot input clock s).state := by
  intro restrained
  have most := peak_emit consumer memory slot input clock s
  rw [most] at restrained
  obtain ⟨balanced, stocked⟩ := h (by omega)
  obtain ⟨buffer, pool, taken, bufferFits, lent⟩ := balanced.lend makes (by omega)
  obtain ⟨picture, pasted, pictureFits, _⟩ := bufferFits.paste fits
  simp only [InverseTelecine.emit, Endpoints.recorded, Consumer.circulating, taken, pasted, Picture.Write.picture,
    List.append_assoc,
    List.cons_append, List.nil_append]
  have frameFits : (clock.stamp picture input).picture.Fits l := ⟨pictureFits.layout, pictureFits.planes⟩
  refine ⟨(lent _ _ frameFits).releaseAll (by simp only; omega) _, ?_⟩
  intro x member
  rcases List.mem_append.mp member with old | new
  · exact stocked x old
  · rcases List.mem_pair.mp new with rfl | rfl
    · exact bufferFits
    · exact True.intro

end emission

namespace Restorer

variable {memory : Memory} {options : Options} {stream : InputStream} {cadence : Cadence} {retiming : Retiming} {p : Pool}

theorem makes_of_furnish {r : Restorer} (drained : p.idle = [])
    (furnished : (furnish (Pool.supply memory) options stream cadence retiming p).1 = .ok r) :
    ∃ blank, Picture.make memory p.layout = .ok blank := by
  cases makes : Picture.make memory p.layout with
  | ok blank => exact ⟨blank, rfl⟩
  | error cause =>
    have takes := p.take_takes memory
    obtain ⟨e, denied⟩ : ∃ e, p.take memory = (.error e, p) := by
      generalize p.take memory = given at takes
      cases takes with
      | reused waiting =>
        rw [drained] at waiting
        cases waiting
      | made _ _ made =>
        rw [makes] at made
        cases made
      | limited _ _ _ => exact ⟨_, rfl⟩
      | exhausted _ _ _ => exact ⟨_, rfl⟩
    simp only [furnish, takeBuffer, Pool.supply, denied] at furnished
    cases furnished

theorem furnish_of_drained (options : Options) (stream : InputStream) (cadence : Cadence) (retiming : Retiming)
    {blank : Picture} (drained : p.idle = []) (makes : Picture.make memory p.layout = .ok blank)
    (below : ∀ n ∈ p.limit, p.made + 3 ≤ n) :
    furnish (Pool.supply memory) options stream cadence retiming p =
      (.ok (fresh options stream cadence retiming blank [blank, blank]), { p with made := p.made + 3 }) := by
  have each : ∀ count < 3, Pool.take { p with made := p.made + count } memory =
      (.ok blank, { p with made := p.made + count + 1 }) := by
    intro count order
    refine Pool.take_of_drained drained makes fun n member => ?_
    have enough := below n member
    simp only
    omega
  have first := each 0 (by decide)
  simp only [Nat.add_zero] at first
  simp only [furnish, takeBuffer, Pool.supply, first, each 1 (by decide), each 2 (by decide)]

theorem start_of_empty {capacity m : Nat} {limit : Option Nat} {r : Restorer} (enough : ∀ n ∈ limit, 3 + m ≤ n)
    (built : (start (Pool.supply memory) options stream (.empty stream.layout capacity limit)).result = .ok r) :
    (∃ blank, Picture.make memory stream.layout = .ok blank) ∧ r.Started options stream ∧
      (start (Pool.supply memory) options stream (.empty stream.layout capacity limit)).state =
        ⟨stream.layout, capacity, limit, [], 3⟩ := by
  obtain ⟨cadence, retiming, accepted, derived, furnished⟩ := start_eq_ok built
  obtain ⟨blank, makes⟩ := makes_of_furnish rfl furnished
  have below : ∀ n ∈ limit, 0 + 3 ≤ n := by
    intro n member
    have bound := enough n member
    omega
  have given := furnish_of_drained (p := .empty stream.layout capacity limit) options stream cadence retiming rfl makes
    below
  have fits : blank.Fits stream.layout := Picture.make_eq_ok makes ▸ Picture.blank_fits stream.layout
  refine ⟨⟨blank, makes⟩, ⟨Pool, Pool.supply memory, _, built, ?_⟩, ?_⟩
  · rw [given] at furnished
    obtain rfl := Except.ok.inj furnished
    refine ⟨fits, rfl, ?_⟩
    intro p member
    rcases List.mem_pair.mp member with rfl | rfl
    · exact fits
    · exact fits
  · rw [(start_eq_furnish rfl accepted derived).2, given]
    rfl

variable {δ : Type}

/-- What a restorer comes to whose pool was new at the start, while the consumer gives buffers back to it during calls
and between them. -/
inductive Circulates (memory : Memory) (consumer : Consumer δ) (options : Options) (stream : InputStream) (capacity : Nat)
    (limit : Option Nat) : Restorer → Circulation δ → Prop where
  | started {r : Restorer}
    (built : (start (Pool.supply memory) options stream (.empty stream.layout capacity limit)).result = .ok r) (mind : δ) :
    Circulates memory consumer options stream capacity limit r
      (.new (start (Pool.supply memory) options stream (.empty stream.layout capacity limit)).state mind)
  | called {r : Restorer} {c : Circulation δ} (before : Circulates memory consumer options stream capacity limit r c)
    {input : Frame} (formed : input.picture.Fits input.layout) :
    Circulates memory consumer options stream capacity limit (call (consumer.circulating memory) r input c).restorer
      (call (consumer.circulating memory) r input c).state.1
  | released {r : Restorer} {c : Circulation δ} (before : Circulates memory consumer options stream capacity limit r c)
    (releases : List Release) (mind : δ) :
    Circulates memory consumer options stream capacity limit r { c.releaseAll releases with mind }
  | rewound {r : Restorer} {c : Circulation δ} (before : Circulates memory consumer options stream capacity limit r c) :
    Circulates memory consumer options stream capacity limit r.rewind c

namespace Circulates

variable {consumer : Consumer δ} {capacity m : Nat} {limit : Option Nat} {r : Restorer} {c : Circulation δ}

theorem reached (run : Circulates memory consumer options stream capacity limit r c) (enough : ∀ n ∈ limit, 3 + m ≤ n) :
    (∃ blank, Picture.make memory stream.layout = .ok blank) ∧ Reached options stream r := by
  induction run with
  | started built mind =>
    obtain ⟨makes, started, _⟩ := start_of_empty enough built
    exact ⟨makes, .started started⟩
  | called _ formed ih => exact ⟨ih.1, ih.2.called (consumer.circulating memory) formed _⟩
  | released _ _ _ ih => exact ih
  | rewound _ ih => exact ⟨ih.1, ih.2.rewound⟩

theorem holds_call (run : Circulates memory consumer options stream capacity limit r c)
    (enough : ∀ n ∈ limit, 3 + m ≤ n) (balanced : c.peak ≤ m → c.Balanced stream.layout m) {input : Frame}
    (formed : input.picture.Fits input.layout) :
    Circulation.Holds stream.layout m (call (consumer.circulating memory) r input c).state := by
  obtain ⟨⟨blank, makes⟩, reached⟩ := run.reached enough
  obtain ⟨cadence, accepted⟩ := reached.cadence
  obtain ⟨_, _, _, serves⟩ := reached.serves accepted
  by_cases own : input.layout = stream.layout
  · rw [own] at formed
    exact serves.follows.call_keeps formed (consumer.circulating memory)
      (fun _ fits clock _ => Circulation.Holds.emit consumer makes fits input clock)
      fun restrained => ⟨balanced restrained, List.forall_mem_nil _⟩
  · obtain ⟨_, _, unchanged⟩ := serves.call_of_other own (consumer.circulating memory) c
    rw [unchanged]
    exact fun restrained => ⟨balanced restrained, List.forall_mem_nil _⟩

theorem balanced (room : m ≤ capacity) (enough : ∀ n ∈ limit, 3 + m ≤ n)
    (run : Circulates memory consumer options stream capacity limit r c) (restrained : c.peak ≤ m) :
    c.Balanced stream.layout m := by
  induction run with
  | started built mind =>
    rw [(start_of_empty enough built).2.2]
    exact ⟨rfl, room, enough, List.forall_mem_nil _, List.forall_mem_nil _, rfl, Nat.le_refl 3⟩
  | called before formed ih => exact (before.holds_call enough ih formed restrained).1
  | @released r c before releases mind ih =>
    rw [c.peak_releaseAll releases] at restrained
    have kept := (ih restrained).releaseAll restrained releases
    exact ⟨kept.layout, kept.room, kept.enough, kept.idle, kept.out, kept.account, kept.made_le⟩
  | rewound _ ih => exact ih restrained

end Circulates

/-- As long as the consumer never has more than `m` frames at once, one on its way counted: all buffers that were made
are in the restorer, idle or out, so that none that came back was dropped, and they are not more than `3 + m`; and no
frame is lacking a buffer, so that a call fails only when the consumer refuses a frame. -/
theorem recycling_bounds_memory {consumer : Consumer δ} {capacity m : Nat} {limit : Option Nat} (room : m ≤ capacity)
    (enough : ∀ n ∈ limit, 3 + m ≤ n) {r : Restorer} {c : Circulation δ}
    (run : Circulates memory consumer options stream capacity limit r c) (restrained : c.peak ≤ m) :
    c.pool.made = 3 + c.pool.idle.length + c.out.length ∧ c.pool.made ≤ 3 + m ∧
      ∀ input : Frame, input.picture.Fits stream.layout →
        let d := call (consumer.circulating memory) r input c
        d.state.1.peak ≤ m →
          (∀ x ∈ d.exchanges, x.Stocked stream.layout) ∧
            ((∃ n, d.result = .ok n) ∨ ∃ frame refusal, .handed frame (.error refusal) ∈ d.exchanges) := by
  have balanced := run.balanced room enough restrained
  have made := balanced.made_le
  refine ⟨balanced.account, by omega, ?_⟩
  intro input fits d still
  have stocked := (run.holds_call enough (fun _ => balanced) fits.own still).2
  refine ⟨stocked, ?_⟩
  obtain ⟨cadence, accepted⟩ := (run.reached enough).2.cadence
  obtain ⟨_, _, _, serves⟩ := (run.reached enough).2.serves accepted
  have gives := (serves.follows.call fits c fun x member => (stocked x member).supplied).1
  by_cases refused : ∃ frame refusal, .handed frame (.error refusal) ∈ d.exchanges
  · exact .inr refused
  · have quiet : d.Undisturbed stream.layout := by
      intro x member
      have fine := stocked x member
      cases x with
      | granted buffer => exact fine
      | denied cause => exact fine.elim
      | handed frame answer =>
        cases answer with
        | ok _ => rfl
        | error refusal => exact absurd ⟨frame, refusal, member⟩ refused
    exact .inl ⟨_, (gives.whole quiet).1⟩

end Restorer

def Consumer.lagging : Consumer Bool := ⟨fun full _ => (.ok (), true, if full then [.oldest] else [])⟩

theorem Restorer.recycling_bounds_memory_lagging :
    ∃ r c, Circulates .boundless .lagging .default .columns 2 (some 5) r c ∧ c.peak = 2 ∧ c.out.length = 1 ∧
      c.pool.made = 3 + c.pool.idle.length + c.out.length ∧ c.pool.made ≤ 3 + 2 ∧
      ∀ x ∈ (call (Consumer.lagging.circulating .boundless) r (.ofPicture (.column 2 5)) c).exchanges, x.Stocked .column := by
  have fits : ∀ top bottom, (Frame.ofPicture (.column top bottom)).picture.Fits .column := Picture.column_fits
  have new : Circulates .boundless .lagging .default .columns 2 (some 5) _ _ := .started rfl false
  have run := (new.called (fits 0 1).own).called (fits 2 3).own
  obtain ⟨account, bounded, next⟩ := recycling_bounds_memory (m := 2) (Nat.le_refl 2) (by decide) run (by decide)
  exact ⟨_, _, run, rfl, rfl, account, bounded, (next _ (fits 2 5) (by decide)).1⟩

end InverseTelecine
