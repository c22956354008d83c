import InverseTelecine.Proofs.Restorer.FieldLayout
import InverseTelecine.Proofs.Restorer.Reached

namespace InverseTelecine

namespace RowRouter

def taken (m : RowRouter) : Nat × RowRouter := ({ m with carry := 0 } : RowRouter).scan m.carry

def reads (m : RowRouter) : List Nat :=
  if 0 < m.skip then []
  else if m.taken.1 = 1 ∧ m.held.isSome then [1, (m.taken.2.scan 0).1]
  else [m.taken.1]

def cover (m : RowRouter) (input : Visible) (fields : Nat) : RowRouter :=
  if fields = 1 then { m with held := some input, skip := 0 } else { m with held := none, skip := fields - 2 }

/-- How a step can go: what it reads, what it shows, and the router after it. -/
inductive Turn (m : RowRouter) (input : Visible) : List Nat → List Visible → RowRouter → Prop where
  | duplicate (more : 2 ≤ m.skip) : Turn m input [] [] { m with skip := m.skip - 2 }
  | donor (one : m.skip = 1) : Turn m input [] [] { m with held := some input, skip := 0 }
  | empty {n : RowRouter} (due : m.skip = 0) (read : m.taken = (0, n)) : Turn m input [0] [] n
  | fresh {n : RowRouter} {fields : Nat} (due : m.skip = 0) (read : m.taken = (fields, n)) (some : 0 < fields)
    (free : m.held = none) : Turn m input [fields] [input] (n.cover input fields)
  | woven {n : RowRouter} {fields : Nat} {held : Visible} (due : m.skip = 0) (read : m.taken = (fields, n))
    (two : 2 ≤ fields) (full : m.held = some held) :
    Turn m input [fields] [Visible.weave m.first input held] (n.cover input (fields - 1))
  | last {n next : RowRouter} {fields : Nat} {held : Visible} (due : m.skip = 0) (read : m.taken = (1, n))
    (full : m.held = some held) (again : n.scan 0 = (fields, next)) (some : 0 < fields) :
    Turn m input [1, fields] [held, input] (next.cover input fields)
  | lost {n next : RowRouter} {held : Visible} (due : m.skip = 0) (read : m.taken = (1, n))
    (full : m.held = some held) (again : n.scan 0 = (0, next)) :
    Turn m input [1, 0] [held] { next with held := none, skip := 0 }

variable {m next : RowRouter} {input : Visible} {reads : List Nat} {shown : List Visible}

theorem kept_of_taken {n : RowRouter} {fields : Nat} (read : m.taken = (fields, n)) :
    n.skip = m.skip ∧ n.held = m.held ∧ n.first = m.first := by
  obtain rfl : n = m.taken.2 := by rw [read]
  exact ⟨rfl, rfl, rfl⟩

theorem scan_free (m : RowRouter) (fields : Nat) :
    ({ m with held := none } : RowRouter).scan fields =
      ((m.scan fields).1, { (m.scan fields).2 with held := none }) := rfl

theorem step_of_due (due : m.skip = 0) (input : Visible) : m.step input = m.showSlots input := by
  rw [step, if_neg (by omega), if_neg (by omega)]

theorem showSlots_of_empty (read : m.taken.1 = 0) (input : Visible) : m.showSlots input = ([], m.taken.2) := by
  have scanned : (({ m with carry := 0 } : RowRouter).scan m.carry).1 = 0 := read
  simp only [showSlots, scanned, if_true]
  rfl

theorem showInput_none (m : RowRouter) (empty : m.held = none) (input : Visible) :
    m.showInput 0 input = ([], { m with skip := 0 }) := by
  simp [showInput, empty, settle]

theorem cover_of_empty (m : RowRouter) (empty : m.held = none) {fields : Nat} (some : 0 < fields) (input : Visible) :
    m.showInput fields input = ([input], m.cover input fields) := by
  rw [showInput_empty empty some, cover, empty]

theorem cover_of_held {held : Visible} (m : RowRouter) (full : m.held = some held) {fields : Nat} (two : 2 ≤ fields)
    (input : Visible) :
    m.showInput fields input = ([Visible.weave m.first input held], m.cover input (fields - 1)) := by
  have exact : fields - 1 = 1 ↔ fields = 2 := by omega
  have rest : fields - 1 - 2 = fields - 3 := by omega
  rw [showInput_held full two, cover, rest]
  simp only [exact]

theorem Turn.eq (h : Turn m input reads shown next) : m.reads = reads ∧ m.step input = (shown, next) := by
  cases h with
  | duplicate more => exact ⟨if_pos (by omega), if_pos more⟩
  | donor one => exact ⟨if_pos (by omega), by rw [step, if_neg (by omega), if_pos one]⟩
  | empty due read =>
    constructor
    · simp [RowRouter.reads, due, read]
    · rw [step_of_due due, showSlots_of_empty (by rw [read]), read]
  | @fresh n fields due read some free =>
    have empty : n.held = none := (kept_of_taken read).2.1.trans free
    constructor
    · simp [RowRouter.reads, due, read, free]
    · rw [step_of_due due, showSlots_eq read some, showHeld_of_empty empty, cover_of_empty n empty some]
      rfl
  | @woven n fields held due read two full =>
    have kept : n.held = .some held := (kept_of_taken read).2.1.trans full
    have same : n.first = m.first := (kept_of_taken read).2.2
    have more : fields ≠ 1 := by omega
    constructor
    · simp [RowRouter.reads, due, read, more]
    · rw [step_of_due due, showSlots_eq read (by omega), showHeld_of_ne_one more, cover_of_held n kept two, same]
      rfl
  | @last n next fields held due read full again some =>
    have kept : n.held = .some held := (kept_of_taken read).2.1.trans full
    have after : ({ n with held := none } : RowRouter).scan 0 = (fields, { next with held := none }) := by
      rw [scan_free, again]
    constructor
    · simp [RowRouter.reads, due, read, full, again]
    · rw [step_of_due due, showSlots_eq read Nat.one_pos, showHeld_of_last kept, after,
        cover_of_empty _ rfl some]
      rfl
  | @lost n next held due read full again =>
    have kept : n.held = .some held := (kept_of_taken read).2.1.trans full
    have after : ({ n with held := none } : RowRouter).scan 0 = (0, { next with held := none }) := by
      rw [scan_free, again]
    constructor
    · simp [RowRouter.reads, due, read, full, again]
    · rw [step_of_due due, showSlots_eq read Nat.one_pos, showHeld_of_last kept, after, showInput_none _ rfl]
      rfl

theorem Turn.of_empty (h : Turn m input reads shown next) (dropped : 0 ∈ reads) :
    (∃ n, m.skip = 0 ∧ m.taken = (0, n) ∧ reads = [0] ∧ shown = [] ∧ next = n) ∨
      ∃ n n' held, m.skip = 0 ∧ m.taken = (1, n) ∧ m.held = some held ∧ n.scan 0 = (0, n') ∧ reads = [1, 0] ∧
        shown = [held] ∧ next = { n' with held := none, skip := 0 } := by
  cases h with
  | duplicate more => cases dropped
  | donor one => cases dropped
  | empty due read => exact .inl ⟨_, due, read, rfl, rfl, rfl⟩
  | fresh due read some free => rw [List.mem_singleton] at dropped; omega
  | woven due read two full => rw [List.mem_singleton] at dropped; omega
  | last due read full again some => rw [List.mem_pair] at dropped; omega
  | lost due read full again => exact .inr ⟨_, _, _, due, read, full, again, rfl, rfl, rfl⟩

theorem exists_turn (m : RowRouter) (input : Visible) : ∃ reads shown next, Turn m input reads shown next := by
  rcases Nat.lt_trichotomy m.skip 1 with none | one | more
  · have due : m.skip = 0 := by omega
    rcases read : m.taken with ⟨fields, n⟩
    rcases full : m.held with _ | held
    · rcases Nat.eq_zero_or_pos fields with rfl | some
      · exact ⟨_, _, _, .empty due read⟩
      · exact ⟨_, _, _, .fresh due read some full⟩
    · match fields with
      | 0 => exact ⟨_, _, _, .empty due read⟩
      | 1 =>
        rcases again : n.scan 0 with ⟨_ | fields, next⟩
        · exact ⟨_, _, _, .lost due read full again⟩
        · exact ⟨_, _, _, .last due read full again (Nat.succ_pos fields)⟩
      | fields + 2 => exact ⟨_, _, _, .woven due read (by omega) full⟩
  · exact ⟨_, _, _, .donor one⟩
  · exact ⟨_, _, _, .duplicate more⟩

theorem step_turn (m : RowRouter) (input : Visible) : Turn m input m.reads (m.step input).1 (m.step input).2 := by
  obtain ⟨reads, shown, next, turn⟩ := m.exists_turn input
  obtain ⟨read, stepped⟩ := turn.eq
  rw [read, stepped]
  exact turn

def after (m : RowRouter) (inputs : List Visible) : RowRouter := inputs.foldl (fun m input => (m.step input).2) m

def readings : RowRouter → List Visible → List (List Nat)
  | _, [] => []
  | m, input :: inputs => m.reads :: readings (m.step input).2 inputs

theorem after_cons (m : RowRouter) (input : Visible) (inputs : List Visible) :
    m.after (input :: inputs) = (m.step input).2.after inputs := rfl

theorem after_concat (m : RowRouter) (inputs : List Visible) (input : Visible) :
    m.after (inputs ++ [input]) = ((m.after inputs).step input).2 := by
  rw [after, after, List.foldl_append]
  rfl

theorem outputs_concat (m : RowRouter) (inputs : List Visible) (input : Visible) :
    m.outputs (inputs ++ [input]) = m.outputs inputs ++ [((m.after inputs).step input).1] := by
  induction inputs generalizing m with
  | nil => rfl
  | cons first inputs ih => rw [List.cons_append, outputs, outputs, ih, after_cons, List.cons_append]

theorem readings_concat (m : RowRouter) (inputs : List Visible) (input : Visible) :
    m.readings (inputs ++ [input]) = m.readings inputs ++ [(m.after inputs).reads] := by
  induction inputs generalizing m with
  | nil => rfl
  | cons first inputs ih => rw [List.cons_append, readings, readings, ih, after_cons, List.cons_append]

theorem length_readings (m : RowRouter) (inputs : List Visible) : (m.readings inputs).length = inputs.length := by
  induction inputs generalizing m with
  | nil => rfl
  | cons input inputs ih => rw [readings, List.length_cons, ih, List.length_cons]

theorem getElem?_readings (m : RowRouter) {inputs : List Visible} {i : Nat} (inside : i < inputs.length) :
    (m.readings inputs)[i]? = some (m.after (inputs.take i)).reads := by
  induction inputs generalizing m i with
  | nil => exact absurd inside (Nat.not_lt_zero i)
  | cons input inputs ih =>
    rcases i with _ | i
    · rfl
    · rw [readings, List.getElem?_cons_succ, List.take_succ_cons, after_cons]
      exact ih _ (Nat.lt_of_succ_lt_succ inside)

end RowRouter

/-- The inputs for which no slot that was read was empty. -/
def undropped {α : Type} (inputs : List α) (readings : List (List Nat)) : List α :=
  ((inputs.zip readings).filter fun x => 0 ∉ x.2).map Prod.fst

section undropped

variable {α β : Type} {input : α} {reads : List Nat}

theorem undropped_concat_of_mem (empty : 0 ∈ reads) {inputs : List α} {readings : List (List Nat)}
    (same : inputs.length = readings.length) :
    undropped (inputs ++ [input]) (readings ++ [reads]) = undropped inputs readings := by
  simp [undropped, List.zip_append same, empty]

theorem undropped_concat_of_not_mem (filled : 0 ∉ reads) {inputs : List α} {readings : List (List Nat)}
    (same : inputs.length = readings.length) :
    undropped (inputs ++ [input]) (readings ++ [reads]) = undropped inputs readings ++ [input] := by
  simp [undropped, List.zip_append same, filled]

theorem map_undropped (f : α → β) (inputs : List α) (readings : List (List Nat)) :
    (undropped inputs readings).map f = undropped (inputs.map f) readings := by
  rw [undropped, undropped, List.zip_map_left, List.filter_map, List.map_map, List.map_map]
  rfl

theorem mem_of_mem_undropped {inputs : List α} {readings : List (List Nat)} (member : input ∈ undropped inputs readings) :
    input ∈ inputs := by
  obtain ⟨pair, found, rfl⟩ := List.mem_map.mp member
  exact (List.of_mem_zip (List.mem_of_mem_filter found)).1

end undropped

namespace Restorer

def slotReads (r : Restorer) : List Nat :=
  if 0 < r.skip then []
  else if r.cadence.takeSlot.1 = 1 ∧ r.donor.full then [1, r.cadence.takeSlot.2.nextSlot.1]
  else [r.cadence.takeSlot.1]

variable {σ : Type} {ends : Endpoints σ} {l : Layout} {r : Restorer} {m : RowRouter} {options : Options}
  {stream : InputStream} {c : Cadence} {retiming : Retiming}

def befores (r : Restorer) (done : List (Call σ)) : List Restorer := (r :: done.map (·.restorer)).dropLast

def lastOf (r : Restorer) (done : List (Call σ)) : Restorer :=
  (r :: done.map (·.restorer)).getLast (List.cons_ne_nil _ _)

def readings (r : Restorer) (done : List (Call σ)) : List (List Nat) := (r.befores done).map slotReads

theorem Follows.taken (h : Follows l r m) :
    r.cadence.takeSlot.1 = m.taken.1 ∧ Follows l { r with cadence := r.cadence.takeSlot.2 } m.taken.2 := by
  obtain ⟨r', read, follows, _⟩ := h.takeSlot
  have run : Restorer.takeSlot r = .ok r.cadence.takeSlot.1 { r with cadence := r.cadence.takeSlot.2 } := rfl
  obtain ⟨same, rfl⟩ := EStateM.Result.ok.inj (run.symm.trans read)
  exact ⟨same, follows⟩

theorem Follows.scanned (h : Follows l r m) :
    r.cadence.nextSlot.1 = (m.scan 0).1 ∧ Follows l { r with cadence := r.cadence.nextSlot.2 } (m.scan 0).2 := by
  obtain ⟨r', read, follows, _⟩ := h.nextSlot
  have run : Restorer.nextSlot r = .ok r.cadence.nextSlot.1 { r with cadence := r.cadence.nextSlot.2 } := rfl
  obtain ⟨same, rfl⟩ := EStateM.Result.ok.inj (run.symm.trans read)
  exact ⟨same, follows⟩

theorem Follows.reads (h : Follows l r m) : r.slotReads = m.reads := by
  obtain ⟨first, follows⟩ := h.taken
  have second := follows.scanned.1
  rw [slotReads, RowRouter.reads, h.skip, h.isFull, first, ← second]

theorem befores_cons (r : Restorer) (d : Call σ) (done : List (Call σ)) :
    r.befores (d :: done) = r :: d.restorer.befores done := rfl

theorem Follows.readings (h : Follows l r m) {inputs : List Frame} (fits : ∀ f ∈ inputs, f.picture.Fits l) (s : σ)
    (supplied : ∀ d ∈ Restorer.calls ends r inputs s, d.Supplied l) :
    r.readings (Restorer.calls ends r inputs s) = m.readings (inputs.map (·.picture.visible)) ∧
      Follows l (r.lastOf (Restorer.calls ends r inputs s)) (m.after (inputs.map (·.picture.visible))) := by
  induction inputs generalizing r m s with
  | nil => exact ⟨rfl, h⟩
  | cons input inputs ih =>
    simp only [Restorer.calls, List.forall_mem_cons] at supplied fits ⊢
    obtain ⟨read, last⟩ := ih (h.call fits.1 s supplied.1).2 fits.2 _ supplied.2
    constructor
    · rw [Restorer.readings, befores_cons, List.map_cons, h.reads]
      exact congrArg _ read
    · exact last

theorem Serves.calls_at (h : Serves options stream c retiming r m) {inputs : List Frame}
    (fits : ∀ f ∈ inputs, f.picture.Fits stream.layout) (s : σ) {i : Nat} {before : Restorer} {input : Frame}
    {d : Call σ} (here : (r.befores (calls ends r inputs s))[i]? = some before) (fed : inputs[i]? = some input)
    (place : (calls ends r inputs s)[i]? = some d) :
    ∃ t, d = Restorer.call ends before input t ∧
      Serves options stream c retiming before (m.after ((inputs.map (·.picture.visible)).take i)) := by
  induction inputs generalizing r m s i with
  | nil => cases fed
  | cons first inputs ih =>
    rw [List.forall_mem_cons] at fits
    simp only [Restorer.calls, befores_cons] at here place
    rcases i with _ | i
    · cases here
      cases fed
      cases place
      exact ⟨s, rfl, h⟩
    · exact ih (h.call fits.1 ends s).2.1 fits.2 _ here fed place

end Restorer

end InverseTelecine
