import InverseTelecine.Proofs.Media.Pools
import InverseTelecine.Proofs.Restorer.Calls

namespace InverseTelecine

/-- While `inv` holds a buffer of the layout is granted, with anything in it, and `inv` goes on to hold. -/
structure Supply.Reliable {σ : Type} (supply : Supply σ) (l : Layout) (inv : σ → Prop) : Prop where
  grants : ∀ s, inv s → ∃ buffer next, supply.take s = (.ok buffer, next) ∧ buffer.Fits l ∧ inv next

structure Endpoints.Reliable {σ : Type} (ends : Endpoints σ) (l : Layout) (inv : σ → Prop) : Prop
    extends Supply.Reliable ends.toSupply l inv where
  accepts : ∀ s frame, inv s → ∃ next, ends.push s frame = (.ok (), next) ∧ inv next

structure Endpoints.Ensure {σ : Type} (ends : Endpoints σ) (P : Exchange → Prop) (inv : σ → Prop) : Prop where
  grants : ∀ s buffer next, inv s → ends.take s = (.ok buffer, next) → P (.granted buffer) ∧ inv next
  denies : ∀ s cause next, inv s → ends.take s = (.error cause, next) → P (.denied cause) ∧ inv next
  answers : ∀ s frame answer next, inv s → ends.push s frame = (answer, next) → P (.handed frame answer) ∧ inv next

theorem Endpoints.Reliable.ensure {σ : Type} {ends : Endpoints σ} {l : Layout} {inv : σ → Prop}
    (h : ends.Reliable l inv) : ends.Ensure (Exchange.Succeeds l) inv where
  grants := by
    intro s buffer next before taken
    obtain ⟨other, after, granted, fits, kept⟩ := h.grants s before
    rw [granted] at taken
    cases taken
    exact ⟨fits, kept⟩
  denies := by
    intro s cause next before taken
    obtain ⟨other, after, granted, _⟩ := h.grants s before
    rw [granted] at taken
    cases taken
  answers := by
    intro s frame answer next before answered
    obtain ⟨after, accepted, kept⟩ := h.accepts s frame before
    rw [accepted] at answered
    cases answered
    exact ⟨rfl, kept⟩

structure Records {σ : Type} (P : Exchange → Prop) (inv : σ → Prop) (s : σ × List Exchange) : Prop where
  state : inv s.1
  record : ∀ x ∈ s.2, P x

section run

variable {σ : Type} {ends : Endpoints σ} {P : Exchange → Prop} {inv : σ → Prop}

theorem Records.append {s : σ × List Exchange} (h : Records P inv s) {next : σ} {x : Exchange}
    (new : P x ∧ inv next) : Records P inv (next, s.2 ++ [x]) := by
  refine ⟨new.2, ?_⟩
  intro y member
  rcases List.mem_append.mp member with old | last
  · exact h.record y old
  · rw [List.mem_singleton.mp last]
    exact new.1

theorem Endpoints.Ensure.emit (h : ends.Ensure P inv) (slot : Picture) (input : Frame) (clock : Clock)
    {s : σ × List Exchange} (before : Records P inv s) :
    Records P inv (emit ends.recorded slot input clock s).state := by
  simp only [InverseTelecine.emit, recorded]
  cases taken : ends.take s.1 with
  | mk answer next =>
    cases answer with
    | error cause => exact before.append (h.denies _ _ _ before.state taken)
    | ok buffer =>
      have stocked := before.append (h.grants _ _ _ before.state taken)
      simp only
      cases (buffer.paste slot).picture with
      | error stop => exact stocked
      | ok picture => exact stocked.append (h.answers _ _ _ _ stocked.state rfl)

namespace Restorer

theorem records_call (h : ends.Ensure P inv) (r : Restorer) (input : Frame) {s : σ} (before : inv s) :
    Records P inv (call ends r input s).state := by
  have start : Records P inv (s, []) := ⟨before, fun x member => by cases member⟩
  exact call_keeps r input (fun slot clock _ => h.emit slot input clock) start

theorem records_calls (h : ends.Ensure P inv) (inputs : List Frame) (r : Restorer) {s : σ} (before : inv s) :
    ∀ c ∈ calls ends r inputs s, ∀ x ∈ c.exchanges, P x := by
  induction inputs generalizing r s with
  | nil => exact fun c member => by cases member
  | cons input inputs ih =>
    have first := records_call h r input before
    intro c member
    rcases List.mem_cons.mp member with rfl | later
    · exact first.record
    · exact ih _ first.state c later

theorem reliable_calls {l : Layout} (h : ends.Reliable l inv) (inputs : List Frame) (r : Restorer) {s : σ}
    (before : inv s) : ∀ c ∈ calls ends r inputs s, c.Undisturbed l :=
  records_calls h.ensure inputs r before

end Restorer

end run

namespace Restorer

variable {σ : Type} {supply : Supply σ} {inv : σ → Prop} {options : Options} {stream : InputStream}

theorem reliable_furnish (h : supply.Reliable stream.layout inv) (options : Options) (cadence : Cadence)
    (retiming : Retiming) {s : σ} (before : inv s) :
    ∃ r next, furnish supply options stream cadence retiming s = (.ok r, next) ∧ r.Furnished stream.layout ∧
      inv next := by
  obtain ⟨donor, s₁, donated, donorFits, kept⟩ := h.grants s before
  obtain ⟨first, s₂, second_taken, firstFits, kept⟩ := h.grants s₁ kept
  obtain ⟨second, s₃, third_taken, secondFits, kept⟩ := h.grants s₂ kept
  refine ⟨fresh options stream cadence retiming donor [first, second], s₃, ?_, ⟨donorFits, rfl, ?_⟩, kept⟩
  · simp only [furnish, takeBuffer, donated, second_taken, third_taken]
  · intro p member
    rcases List.mem_pair.mp member with rfl | rfl
    · exact firstFits
    · exact secondFits

theorem reliable_start (h : supply.Reliable stream.layout inv) {s : σ} (before : inv s) {r : Restorer}
    (built : (start supply options stream s).result = .ok r) : r.Started options stream := by
  refine ⟨σ, supply, s, built, ?_⟩
  obtain ⟨cadence, retiming, _, _, furnished⟩ := start_eq_ok built
  obtain ⟨same, next, given, fits, _⟩ := reliable_furnish h options cadence retiming before
  rw [given] at furnished
  exact Except.ok.inj furnished ▸ fits

end Restorer

namespace Pool

structure Open (l : Layout) (p : Pool) : Prop where
  layout : p.layout = l
  unlimited : p.limit = none
  idle : ∀ q ∈ p.idle, q.Fits l

theorem empty_open (l : Layout) (capacity : Nat) : (empty l capacity none).Open l :=
  ⟨rfl, rfl, fun q member => by cases member⟩

theorem giveBack_open {l : Layout} {p : Pool} (h : p.Open l) {picture : Picture} (fits : picture.Fits l) :
    (p.giveBack picture).Open l := by
  unfold giveBack
  split
  · refine ⟨h.layout, h.unlimited, ?_⟩
    intro q member
    rcases List.mem_append.mp member with old | new
    · exact h.idle q old
    · rw [List.mem_singleton.mp new]
      exact fits
  · exact h

theorem supply_reliable {memory : Memory} {l : Layout} {blank : Picture} (made : Picture.make memory l = .ok blank) :
    (supply memory).Reliable l (Open l) where
  grants := by
    intro p h
    have takes := p.take_takes memory
    simp only [supply]
    generalize p.take memory = answer at takes ⊢
    cases takes with
    | reused waiting =>
      have idle := h.idle
      rw [waiting, List.forall_mem_cons] at idle
      exact ⟨_, _, rfl, idle.1, h.layout, h.unlimited, idle.2⟩
    | made drained below makes =>
      exact ⟨_, _, rfl, h.layout ▸ Picture.blank_fits p.layout, h.layout, h.unlimited, h.idle⟩
    | limited drained limit reached =>
      rw [h.unlimited] at limit
      cases limit
    | exhausted drained below fails =>
      rw [h.layout, made] at fails
      cases fails

theorem collecting_reliable {memory : Memory} {l : Layout} {blank : Picture}
    (made : Picture.make memory l = .ok blank) : (supply memory).collecting.Reliable l (fun s => s.1.Open l) where
  grants := by
    intro s h
    obtain ⟨buffer, next, granted, fits, kept⟩ := (supply_reliable made).grants s.1 h
    refine ⟨buffer, (next, s.2), ?_, fits, kept⟩
    simp only [Supply.collecting, granted]
  accepts := by
    intro s frame h
    exact ⟨(s.1, s.2 ++ [frame]), rfl, h⟩

end Pool

section column

def Layout.column : Layout := ⟨1, 2, .gray8⟩

def Picture.column (top bottom : UInt8) : Picture := .ofPlanes .column [⟨#[top, 200, bottom, 201], 2, ⟨1, 2⟩⟩]

def Frame.columns (pixels : List (UInt8 × UInt8)) : List Frame :=
  pixels.map fun pair => .ofPicture (.column pair.1 pair.2)

def InputStream.columns : InputStream := ⟨.column, ⟨⟨30, 1⟩, ⟨⟨1, 30⟩⟩⟩⟩

def Pool.columns : Pool := ⟨.column, 4, none, [.column 98 99, .column 99 98], 2⟩

theorem Picture.column_fits (top bottom : UInt8) : (column top bottom).Fits .column :=
  ⟨rfl, .cons ⟨rfl, Nat.le_succ 1, Nat.le_refl 4⟩ .nil⟩

theorem Frame.columns_fit (pixels : List (UInt8 × UInt8)) : ∀ f ∈ columns pixels, f.picture.Fits .column := by
  intro f member
  obtain ⟨pair, _, rfl⟩ := List.mem_map.mp member
  exact Picture.column_fits pair.1 pair.2

theorem Pool.columns_open : columns.Open .column := by
  refine ⟨rfl, rfl, ?_⟩
  intro p member
  rcases List.mem_pair.mp member with rfl | rfl
  · exact Picture.column_fits 98 99
  · exact Picture.column_fits 99 98

theorem Pool.columns_reliable : (supply .boundless).Reliable .column (Open .column) := supply_reliable rfl

namespace Restorer

theorem columns_started {options : Options} {r : Restorer}
    (built : (start (Pool.supply .boundless) options .columns Pool.columns).result = .ok r) :
    r.Started options .columns :=
  reliable_start Pool.columns_reliable Pool.columns_open built

theorem columns_undisturbed (r : Restorer) (inputs : List Frame) :
    ∀ c ∈ calls (Pool.supply .boundless).collecting r inputs (Pool.columns, []), c.Undisturbed .column :=
  reliable_calls (Pool.collecting_reliable rfl) inputs r Pool.columns_open

end Restorer

end column

end InverseTelecine
