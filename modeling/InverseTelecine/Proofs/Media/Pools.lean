import InverseTelecine.Media.Pool
import InverseTelecine.Proofs.Media.Pictures

namespace InverseTelecine

namespace Pool

theorem take_of_drained {p : Pool} {memory : Memory} {blank : Picture} (drained : p.idle = [])
    (makes : Picture.make memory p.layout = .ok blank) (below : ∀ n ∈ p.limit, p.made < n) :
    p.take memory = (.ok blank, { p with made := p.made + 1 }) := by
  rw [take, drained]
  cases limit : p.limit with
  | none => simp only [make, makes, limit, drained]
  | some n => simp only [if_neg (Nat.not_le.mpr (below n limit)), make, makes, limit, drained]

/-- How asking for a buffer can go. -/
inductive Takes (p : Pool) (memory : Memory) : Except MediaError Picture × Pool → Prop where
  | reused {picture : Picture} {rest : List Picture} (waiting : p.idle = picture :: rest) :
    Takes p memory (.ok picture, { p with idle := rest })
  | made (drained : p.idle = []) (below : ∀ n ∈ p.limit, p.made < n)
    (makes : Picture.make memory p.layout = .ok (.blank p.layout)) :
    Takes p memory (.ok (.blank p.layout), { p with made := p.made + 1 })
  | limited {n : Nat} (drained : p.idle = []) (limit : p.limit = some n) (reached : n ≤ p.made) :
    Takes p memory (.error (limitError n), p)
  | exhausted {cause : MediaError} (drained : p.idle = []) (below : ∀ n ∈ p.limit, p.made < n)
    (fails : Picture.make memory p.layout = .error cause) : Takes p memory (.error cause, p)

theorem take_takes (p : Pool) (memory : Memory) : p.Takes memory (p.take memory) := by
  cases waiting : p.idle with
  | cons picture rest =>
    rw [take, waiting]
    exact .reused waiting
  | nil =>
    by_cases below : ∀ n ∈ p.limit, p.made < n
    · cases made : Picture.make memory p.layout with
      | ok picture =>
        obtain rfl := Picture.make_eq_ok made
        rw [take_of_drained waiting made below]
        exact .made waiting below made
      | error cause =>
        have denied : p.take memory = (.error cause, p) := by
          rw [take, waiting]
          cases limit : p.limit with
          | none => simp only [make, made]
          | some n => simp only [if_neg (Nat.not_le.mpr (below n limit)), make, made]
        rw [denied]
        exact .exhausted waiting below made
    · cases limit : p.limit with
      | none =>
        rw [limit] at below
        exact absurd (fun n member => by cases member) below
      | some n =>
        have reached : n ≤ p.made := by
          rw [limit] at below
          apply Nat.le_of_not_lt
          intro less
          exact below fun m member => Option.some.inj member ▸ less
        have denied : p.take memory = (.error (limitError n), p) := by
          rw [take, waiting, limit]
          exact if_pos reached
        rw [denied]
        exact .limited waiting limit reached

theorem giveBack_of_room {p : Pool} {picture : Picture} (room : p.idle.length < p.capacity)
    (same : picture.layout = p.layout) : p.giveBack picture = { p with idle := p.idle ++ [picture] } :=
  if_pos ⟨room, same⟩

theorem giveBack_of_misfit {p : Pool} {picture : Picture}
    (misfit : ¬(p.idle.length < p.capacity ∧ picture.layout = p.layout)) : p.giveBack picture = p := if_neg misfit

inductive Request where
  | take (memory : Memory)
  /-- The buffer at `index` of those that are out comes back as `picture`. Where there is none, a foreign one comes. -/
  | giveBack (index : Nat) (picture : Picture)

def serve (p : Pool) : Request → Pool
  | .take memory => (p.take memory).2
  | .giveBack _ picture => p.giveBack picture

/-- A pool, and what became of the buffers that went through it. -/
structure History where
  pool : Pool
  out : List Picture
  /-- How many buffers came that were not out. -/
  foreign : Nat
  discarded : Nat
  /-- The buffers that came and were kept, in order. -/
  kept : List Picture
  /-- The buffers that were idle and handed out again, in order. -/
  reused : List Picture

namespace History

def new (l : Layout) (capacity : Nat) (limit : Option Nat) : History := ⟨.empty l capacity limit, [], 0, 0, [], []⟩

def take (h : History) (memory : Memory) : History :=
  match h.pool.take memory with
  | (.error _, pool) => { h with pool }
  | (.ok picture, pool) =>
    { h with
      pool
      out := h.out ++ [picture]
      reused := if h.pool.idle.isEmpty then h.reused else h.reused ++ [picture] }

def giveBack (h : History) (index : Nat) (picture : Picture) : History :=
  let pool := h.pool.giveBack picture
  let keeps := h.pool.idle.length < pool.idle.length
  { pool
    out := h.out.eraseIdx index
    foreign := if index < h.out.length then h.foreign else h.foreign + 1
    discarded := if keeps then h.discarded else h.discarded + 1
    kept := if keeps then h.kept ++ [picture] else h.kept
    reused := h.reused }

def ask (h : History) : Request → History
  | .take memory => h.take memory
  | .giveBack index picture => h.giveBack index picture

def askAll (h : History) (requests : List Request) : History := requests.foldl ask h

theorem pool_ask (h : History) (request : Request) : (h.ask request).pool = h.pool.serve request := by
  cases request with
  | take memory =>
    simp only [ask, take, serve]
    split
    next given => rw [given]
    next given => rw [given]
  | giveBack index picture => rfl

theorem pool_askAll (h : History) (requests : List Request) :
    (h.askAll requests).pool = requests.foldl serve h.pool := by
  induction requests generalizing h with
  | nil => rfl
  | cons request requests ih =>
    rw [List.foldl_cons, ← pool_ask]
    exact ih (h.ask request)

variable {h : History} {memory : Memory} {l : Layout} {capacity : Nat} {limit : Option Nat}

/-- No more buffers wait than there is room for, no more were made than the limit allows, and all have the layout. What was
kept is what was handed out again and what waits behind it; what was made or came from elsewhere is out, idle or discarded. -/
structure Sound (l : Layout) (capacity : Nat) (limit : Option Nat) (h : History) : Prop where
  layout_eq : h.pool.layout = l
  capacity_eq : h.pool.capacity = capacity
  limit_eq : h.pool.limit = limit
  idle_le : h.pool.idle.length ≤ capacity
  made_le : ∀ n ∈ limit, h.pool.made ≤ n
  idle : ∀ p ∈ h.pool.idle, p.layout = l
  out : ∀ p ∈ h.out, p.layout = l
  order : h.kept = h.reused ++ h.pool.idle
  account : h.out.length + h.pool.idle.length + h.discarded = h.pool.made + h.foreign

theorem new_sound (l : Layout) (capacity : Nat) (limit : Option Nat) : (new l capacity limit).Sound l capacity limit :=
  ⟨rfl, rfl, rfl, Nat.zero_le _, fun _ _ => Nat.zero_le _, List.forall_mem_nil _, List.forall_mem_nil _, rfl, rfl⟩

theorem Sound.take (s : h.Sound l capacity limit) (memory : Memory) : (h.take memory).Sound l capacity limit := by
  have takes := h.pool.take_takes memory
  unfold History.take
  generalize h.pool.take memory = given at takes
  have account := s.account
  have out : ∀ picture : Picture, picture.layout = l → ∀ p ∈ h.out ++ [picture], p.layout = l :=
    fun _ same => List.forall_mem_append.mpr ⟨s.out, List.forall_mem_singleton.mpr same⟩
  cases takes with
  | @reused picture rest waiting =>
    have idle := s.idle
    have idle_le := s.idle_le
    have order := s.order
    rw [waiting] at idle idle_le order account
    rw [List.forall_mem_cons] at idle
    rw [List.length_cons] at idle_le account
    refine ⟨s.layout_eq, s.capacity_eq, s.limit_eq, Nat.le_of_succ_le idle_le, s.made_le, idle.2, out picture idle.1, ?_, ?_⟩
    · simp only [waiting, List.isEmpty_cons, Bool.false_eq_true, if_false, List.append_assoc, List.singleton_append]
      exact order
    · simp only [List.length_append, List.length_singleton]
      omega
  | made drained below makes =>
    refine ⟨s.layout_eq, s.capacity_eq, s.limit_eq, s.idle_le, ?_, s.idle, out _ s.layout_eq, ?_, ?_⟩
    · exact fun n member => below n (s.limit_eq ▸ member)
    · simp only [drained, List.isEmpty_nil, if_true]
      rw [s.order, drained]
    · simp only [List.length_append, List.length_singleton]
      omega
  | limited _ _ _ => exact s
  | exhausted _ _ _ => exact s

theorem Sound.giveBack (s : h.Sound l capacity limit) (index : Nat) (picture : Picture) :
    (h.giveBack index picture).Sound l capacity limit := by
  have account := s.account
  have out : ∀ p ∈ h.out.eraseIdx index, p.layout = l := fun p member => s.out p (List.mem_of_mem_eraseIdx member)
  unfold History.giveBack
  by_cases room : h.pool.idle.length < h.pool.capacity ∧ picture.layout = h.pool.layout
  · have longer : h.pool.idle.length < (h.pool.idle ++ [picture]).length := by simp
    rw [giveBack_of_room room.1 room.2]
    simp only [if_pos longer]
    refine ⟨s.layout_eq, s.capacity_eq, s.limit_eq, ?_, s.made_le, ?_, out, ?_, ?_⟩
    · rw [← s.capacity_eq, List.length_append]
      exact room.1
    · exact List.forall_mem_append.mpr ⟨s.idle, List.forall_mem_singleton.mpr (room.2.trans s.layout_eq)⟩
    · rw [s.order, List.append_assoc]
    · simp only [List.length_eraseIdx, List.length_append, List.length_singleton]
      split <;> omega
  · rw [giveBack_of_misfit room]
    simp only [Nat.lt_irrefl, if_false]
    refine ⟨s.layout_eq, s.capacity_eq, s.limit_eq, s.idle_le, s.made_le, s.idle, out, s.order, ?_⟩
    simp only [List.length_eraseIdx]
    split <;> omega

theorem Sound.askAll (s : h.Sound l capacity limit) (requests : List Request) :
    (h.askAll requests).Sound l capacity limit := by
  induction requests generalizing h with
  | nil => exact s
  | cons request requests ih =>
    cases request with
    | take memory => exact ih (s.take memory)
    | giveBack index picture => exact ih (s.giveBack index picture)

theorem Sound.fails_iff (s : h.Sound l capacity limit) :
    (∃ cause, (h.pool.take memory).1 = .error cause) ↔
      h.pool.idle = [] ∧ ((∃ n ∈ limit, h.pool.made = n) ∨ ∃ cause, Picture.make memory l = .error cause) := by
  obtain rfl := s.layout_eq
  obtain rfl := s.limit_eq
  have takes := h.pool.take_takes memory
  generalize h.pool.take memory = given at takes
  cases takes with
  | reused waiting => simp [waiting]
  | made drained below makes =>
    constructor
    · rintro ⟨cause, failed⟩
      cases failed
    · rintro ⟨_, ⟨n, member, same⟩ | ⟨cause, failed⟩⟩
      · exact absurd same (Nat.ne_of_lt (below n member))
      · rw [makes] at failed
        cases failed
  | @limited n drained limit reached =>
    have most := s.made_le n limit
    exact ⟨fun _ => ⟨drained, .inl ⟨n, limit, Nat.le_antisymm most reached⟩⟩, fun _ => ⟨_, rfl⟩⟩
  | exhausted drained below fails => exact ⟨fun _ => ⟨drained, .inr ⟨_, fails⟩⟩, fun _ => ⟨_, rfl⟩⟩

theorem Sound.gives (s : h.Sound l capacity limit) {picture : Picture} {next : Pool}
    (given : h.pool.take memory = (.ok picture, next)) :
    h.pool.idle = picture :: next.idle ∧ next.made = h.pool.made ∨
      h.pool.idle = [] ∧ picture = .blank l ∧ next.idle = [] ∧ next.made = h.pool.made + 1 := by
  obtain rfl := s.layout_eq
  have takes := h.pool.take_takes memory
  rw [given] at takes
  cases takes with
  | reused waiting => exact .inl ⟨waiting, rfl⟩
  | made drained below makes => exact .inr ⟨drained, rfl, drained, rfl⟩

theorem Sound.dropped_iff (s : h.Sound l capacity limit) (picture : Picture) :
    h.pool.giveBack picture = h.pool ↔ picture.layout ≠ l ∨ h.pool.idle.length = capacity := by
  obtain rfl := s.layout_eq
  obtain rfl := s.capacity_eq
  have most := s.idle_le
  by_cases room : h.pool.idle.length < h.pool.capacity ∧ picture.layout = h.pool.layout
  · rw [giveBack_of_room room.1 room.2]
    constructor
    · intro same
      have length := congrArg (fun p : Pool => p.idle.length) same
      simp at length
    · rintro (other | full)
      · exact absurd room.2 other
      · exact absurd full (Nat.ne_of_lt room.1)
  · simp only [giveBack_of_misfit room, true_iff]
    by_cases same : picture.layout = h.pool.layout
    · exact .inr (Nat.le_antisymm most (Nat.le_of_not_lt fun less => room ⟨less, same⟩))
    · exact .inl same

theorem Sound.recovers (s : h.Sound l capacity limit) {cause : MediaError}
    (failed : (h.pool.take memory).1 = .error cause) (room : 0 < capacity) {picture : Picture}
    (same : picture.layout = l) (later : Memory) : (h.pool.giveBack picture).take later = (.ok picture, h.pool) := by
  have drained := (s.fails_iff.mp ⟨cause, failed⟩).1
  have vacant : h.pool.idle.length < h.pool.capacity := by
    rw [drained, s.capacity_eq]
    exact room
  have empty : { h.pool with idle := [] } = h.pool := by rw [← drained]
  rw [giveBack_of_room vacant (same.trans s.layout_eq.symm), drained, List.nil_append]
  exact congrArg (Prod.mk (Except.ok picture)) empty

end History

theorem take_eq_self_of_error {p : Pool} {memory : Memory} {cause : MediaError}
    (failed : (p.take memory).1 = .error cause) : (p.take memory).2 = p := by
  have takes := p.take_takes memory
  generalize p.take memory = given at takes failed
  cases takes with
  | reused _ => cases failed
  | made _ _ _ => cases failed
  | limited _ _ _ => rfl
  | exhausted _ _ _ => rfl

end Pool

/-- Shared pools. A handle leads to one of them, and its clones lead there too. -/
structure SharedPools where
  pools : List Pool
  leads : List Nat

namespace SharedPools

inductive Call where
  | clone (handle : Nat)
  | ask (handle : Nat) (request : Pool.Request)

def call (s : SharedPools) : Call → SharedPools
  | .clone handle => { s with leads := s.leads ++ s.leads[handle]?.toList }
  | .ask handle request =>
    match s.leads[handle]? with
    | none => s
    | some k => { s with pools := s.pools.modify k (·.serve request) }

def run (s : SharedPools) (calls : List Call) : SharedPools := calls.foldl call s

def request? (s : SharedPools) (k : Nat) : Call → Option Pool.Request
  | .clone _ => none
  | .ask handle request => if s.leads[handle]? = some k then some request else none

def requests (k : Nat) : SharedPools → List Call → List Pool.Request
  | _, [] => []
  | s, c :: cs => (s.request? k c).toList ++ requests k (s.call c) cs

theorem getElem?_pools_call (s : SharedPools) (c : Call) (k : Nat) :
    (s.call c).pools[k]? = (s.pools[k]?).map fun p => (s.request? k c).toList.foldl Pool.serve p := by
  cases c with
  | clone handle => exact Option.map_id'.symm
  | ask handle request =>
    simp only [call, request?]
    cases leads : s.leads[handle]? with
    | none => exact Option.map_id'.symm
    | some target =>
      simp only [List.getElem?_modify, Option.some.injEq]
      split
      · rfl
      · rfl

theorem getElem?_pools_run (s : SharedPools) (calls : List Call) (k : Nat) :
    (s.run calls).pools[k]? = (s.pools[k]?).map fun p => (requests k s calls).foldl Pool.serve p := by
  induction calls generalizing s with
  | nil => exact Option.map_id'.symm
  | cons c calls ih =>
    show ((s.call c).run calls).pools[k]? = _
    rw [ih, getElem?_pools_call, Option.map_map]
    simp only [requests, List.foldl_append, Function.comp_def]

/-- Whatever is asked of a pool through its handles, it never keeps more buffers than it has room for nor makes more than
its limit allows, and all of them have its layout. Buffers go out again in the order in which they came to wait; if none
waits, a blank one is made, or else the pool fails and stays as it was, until a buffer comes back. A buffer that comes is
turned away exactly when its layout is another or there is no room. -/
theorem pool_history {s : SharedPools} {k : Nat} {l : Layout} {capacity : Nat} {limit : Option Nat}
    (new : s.pools[k]? = some (.empty l capacity limit)) (calls : List Call) :
    let h := (Pool.History.new l capacity limit).askAll (requests k s calls)
    (s.run calls).pools[k]? = some h.pool ∧
      h.pool.idle.length ≤ capacity ∧
      (∀ n ∈ limit, h.pool.made ≤ n) ∧
      (∀ p ∈ h.pool.idle ++ h.out, p.layout = l) ∧
      h.kept = h.reused ++ h.pool.idle ∧
      h.out.length + h.pool.idle.length + h.discarded = h.pool.made + h.foreign ∧
      (∀ memory picture next, h.pool.take memory = (.ok picture, next) →
        h.pool.idle = picture :: next.idle ∧ next.made = h.pool.made ∨
          h.pool.idle = [] ∧ picture = .blank l ∧ next.idle = [] ∧ next.made = h.pool.made + 1) ∧
      (∀ memory, (∃ cause, (h.pool.take memory).1 = .error cause) ↔
        h.pool.idle = [] ∧ ((∃ n ∈ limit, h.pool.made = n) ∨ ∃ cause, Picture.make memory l = .error cause)) ∧
      (∀ memory cause, (h.pool.take memory).1 = .error cause → (h.pool.take memory).2 = h.pool ∧
        ∀ picture later, 0 < capacity → picture.layout = l →
          (h.pool.giveBack picture).take later = (.ok picture, h.pool)) ∧
      ∀ picture,
        (h.pool.giveBack picture = h.pool ↔ picture.layout ≠ l ∨ h.pool.idle.length = capacity) ∧
          (h.pool.giveBack picture ≠ h.pool →
            h.pool.giveBack picture = { h.pool with idle := h.pool.idle ++ [picture] }) := by
  intro h
  have sound : h.Sound l capacity limit := (Pool.History.new_sound l capacity limit).askAll _
  refine ⟨?_, sound.idle_le, sound.made_le, ?_, sound.order, sound.account, fun _ _ _ => sound.gives,
    fun _ => sound.fails_iff, ?_, ?_⟩
  · rw [getElem?_pools_run, new, Option.map_some, Pool.History.pool_askAll]
    rfl
  · exact List.forall_mem_append.mpr ⟨sound.idle, sound.out⟩
  · intro memory cause failed
    exact ⟨Pool.take_eq_self_of_error failed, fun _ later room same => sound.recovers failed room same later⟩
  · intro picture
    refine ⟨sound.dropped_iff picture, ?_⟩
    intro changed
    by_cases room : h.pool.idle.length < h.pool.capacity ∧ picture.layout = h.pool.layout
    · exact Pool.giveBack_of_room room.1 room.2
    · exact absurd (Pool.giveBack_of_misfit room) changed

theorem pool_history_clones :
    let s : SharedPools := ⟨[.empty ⟨1, 1, .gray8⟩ 1 (some 2)], [0]⟩
    let calls : List Call := [.clone 0, .ask 0 (.take .boundless), .ask 1 (.take .boundless), .ask 0 (.take .boundless),
      .ask 1 (.giveBack 0 (.blank ⟨2, 1, .gray8⟩)), .ask 1 (.take .boundless)]
    let h := (Pool.History.new ⟨1, 1, .gray8⟩ 1 (some 2)).askAll (requests 0 s calls)
    (s.run calls).pools[0]? = some h.pool ∧ h.out.length = 1 ∧ h.discarded = 1 ∧ h.pool.made = 2 ∧
      h.out.length + h.pool.idle.length + h.discarded = h.pool.made + h.foreign ∧
      (∃ cause, (h.pool.take .boundless).1 = .error cause) ∧
      (h.pool.giveBack (.blank ⟨1, 1, .gray8⟩)).take .boundless = (.ok (.blank ⟨1, 1, .gray8⟩), h.pool) := by
  intro s calls h
  have new : s.pools[0]? = some (.empty ⟨1, 1, .gray8⟩ 1 (some 2)) := rfl
  obtain ⟨pool, _, _, _, _, account, _, fails, recovers, _⟩ := pool_history new calls
  obtain ⟨cause, failed⟩ := (fails .boundless).mpr ⟨by decide, .inl ⟨2, rfl, by decide⟩⟩
  exact ⟨pool, by decide, by decide, by decide, account, ⟨cause, failed⟩,
    (recovers .boundless cause failed).2 (.blank ⟨1, 1, .gray8⟩) .boundless (by decide) rfl⟩

end SharedPools

end InverseTelecine
