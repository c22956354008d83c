import InverseTelecine.Proofs.Restorer.FieldLayout
import InverseTelecine.Proofs.Restorer.Reliable

namespace InverseTelecine.Restorer

def visibleAt (inputs : List Frame) (i : Nat) : Visible := (inputs.map (·.picture.visible)).getD i []

def slotShown (first : FieldParity) (inputs : List Frame) (len : Nat → Nat) (j : Nat) : Visible :=
  slotPicture first (visibleAt inputs) (slotStart len j) (len j)

variable {σ : Type} {ends : Endpoints σ} {options : Options} {stream : InputStream} {c : Cadence} {r : Restorer}

/-- Every run gives call by call what the row router gives, in the visible rows of every plane. What the
buffers and the padding held before is in none of them. -/
theorem run_gives_router_outputs (accepted : options.cadence = .ok c) (started : r.Started options stream)
    {inputs : List Frame} (fits : ∀ f ∈ inputs, f.picture.Fits stream.layout) (s : σ)
    (supplied : ∀ d ∈ calls ends r inputs s, d.Supplied stream.layout) :
    List.Forall₂ (Call.Gives stream.layout) (calls ends r inputs s)
      ((RowRouter.start c.digits options.start options.first).outputs (inputs.map (·.picture.visible))) :=
  (started.follows accepted).run fits s supplied

theorem run_gives_router_outputs_column :
    ∃ r, (start (Pool.supply .boundless) .default .columns Pool.columns).result = .ok r ∧
      List.Forall₂ (Call.Gives .column)
        (calls (Pool.supply .boundless).collecting r (Frame.columns [(0, 1), (2, 3), (2, 5), (4, 7), (6, 7)])
          (Pool.columns, []))
        [[[[#[0], #[1]]]], [[[#[2], #[3]]]], [], [[[#[4], #[5]]]], [[[#[6], #[7]]]]] := by
  obtain ⟨r, built⟩ : ∃ r, (start (Pool.supply .boundless) .default .columns Pool.columns).result = .ok r := ⟨_, rfl⟩
  have accepted : Options.default.cadence = .ok ⟨[2, 3], 0, 0, 0, 0, ⟨5, 4⟩, 0⟩ := rfl
  exact ⟨r, built, run_gives_router_outputs accepted (columns_started built) (Frame.columns_fit _) _
    fun d member => (columns_undisturbed r _ d member).supplied⟩

theorem Started.shown (started : r.Started options stream) (accepted : options.cadence = .ok c)
    (last : c.digits.getLast? ≠ some 0) {inputs : List Frame}
    (fits : ∀ f ∈ inputs, f.picture.Fits stream.layout) (s : σ)
    (quiet : ∀ d ∈ calls ends r inputs s, d.Undisturbed stream.layout) :
    (calls ends r inputs s).flatMap Call.shown =
      (List.range (slotsBefore (Cadence.cutFields c.digits options.start) (2 * inputs.length - 1))).map
        (slotShown options.first inputs (Cadence.cutFields c.digits options.start)) := by
  have inside := (Options.cadence_eq_ok accepted).inside
  rw [(started.follows accepted).shown fits s quiet, RowRouter.flatten_outputs_start inside last, List.length_map]
  rfl

/-- A run that nothing disturbs hands on just the slots that start before the last field of its inputs, each
once, in order, and each in the call for the input that completes it. -/
theorem run_gives_slots (accepted : options.cadence = .ok c) (last : c.digits.getLast? ≠ some 0)
    (started : r.Started options stream) {inputs : List Frame} (filled : inputs ≠ [])
    (fits : ∀ f ∈ inputs, f.picture.Fits stream.layout) (s : σ)
    (quiet : ∀ d ∈ calls ends r inputs s, d.Undisturbed stream.layout) :
    let len := slotFields c.digits c.position c.carry
    ∃ count, (∀ j, j < count ↔ slotStart len j ≤ 2 * inputs.length - 2) ∧
      (calls ends r inputs s).flatMap Call.shown =
        (List.range count).map (slotShown options.first inputs len) ∧
      (calls ends r inputs s).map (fun d => (d.result, d.shown)) = (List.range inputs.length).map fun i =>
        let due := (List.range count).filter fun j => (slotStart len j + 1) / 2 = i
        (.ok due.length, due.map (slotShown options.first inputs len)) := by
  intro len
  have parsed := Options.cadence_eq_ok accepted
  have inside := parsed.inside
  have cut : len = Cadence.cutFields c.digits options.start := parsed.slotFields
  have positive : ∀ j, 0 < len j := cut ▸ Cadence.cutFields_pos inside last
  have some : 0 < inputs.length := List.length_pos_of_ne_nil filled
  refine ⟨slotsBefore len (2 * inputs.length - 1), ?_, ?_, ?_⟩
  · intro j
    rw [lt_slotsBefore_iff positive]
    omega
  · rw [cut]
    exact started.shown accepted last fits s quiet
  · rw [(started.follows accepted).calls fits s quiet, RowRouter.outputs_start inside last, List.map_map,
      List.length_map]
    apply List.map_congr_left
    intro i member
    have due := filter_slotsBefore positive (List.mem_range.mp member)
    simp only [Function.comp_apply, due, List.length_map, ← cut]
    rfl

theorem run_gives_slots_column :
    ∃ r, (start (Pool.supply .boundless) ⟨.bottom, "1203", 1⟩ .columns Pool.columns).result = .ok r ∧
      let len := slotFields [1, 2, 0, 3] 2 1
      let inputs := Frame.columns [(0, 1), (1, 2), (2, 2)]
      ∃ count, (∀ j, j < count ↔ slotStart len j ≤ 4) ∧
        (calls (Pool.supply .boundless).collecting r inputs (Pool.columns, [])).flatMap Call.shown =
          (List.range count).map (slotShown .bottom inputs len) ∧
        (calls (Pool.supply .boundless).collecting r inputs (Pool.columns, [])).map (fun d => (d.result, d.shown)) =
          (List.range 3).map fun i =>
            let due := (List.range count).filter fun j => (slotStart len j + 1) / 2 = i
            (.ok due.length, due.map (slotShown .bottom inputs len)) := by
  obtain ⟨r, built⟩ :
      ∃ r, (start (Pool.supply .boundless) ⟨.bottom, "1203", 1⟩ .columns Pool.columns).result = .ok r := ⟨_, rfl⟩
  have accepted : Options.cadence ⟨.bottom, "1203", 1⟩ = .ok ⟨[1, 2, 0, 3], 2, 1, 2, 1, ⟨6, 8⟩, 1⟩ := rfl
  exact ⟨r, built, run_gives_slots accepted (by decide) (columns_started built) (List.cons_ne_nil _ _)
    (Frame.columns_fit [(0, 1), (1, 2), (2, 2)]) _ (columns_undisturbed r _)⟩

end InverseTelecine.Restorer
