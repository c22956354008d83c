import InverseTelecine.Media.Picture

namespace InverseTelecine

structure Pool where
  layout : Layout
  capacity : Nat
  limit : Option Nat
  idle : List Picture
  made : Nat
deriving DecidableEq, Repr

namespace Pool

def empty (l : Layout) (capacity : Nat) (limit : Option Nat) : Pool := ⟨l, capacity, limit, [], 0⟩

def limitError (limit : Nat) : MediaError :=
  .exhausted ("frame pool limit of " ++ toString limit ++ " buffers reached")

def make (p : Pool) (memory : Memory) : Except MediaError Picture × Pool :=
  match Picture.make memory p.layout with
  | .error e => (.error e, p)
  | .ok picture => (.ok picture, { p with made := p.made + 1 })

def take (p : Pool) (memory : Memory) : Except MediaError Picture × Pool :=
  match p.idle with
  | picture :: rest => (.ok picture, { p with idle := rest })
  | [] =>
    match p.limit with
    | none => p.make memory
    | some limit => if limit ≤ p.made then (.error (limitError limit), p) else p.make memory

/-- Pictures of another layout, or beyond the capacity, are dropped. -/
def giveBack (p : Pool) (picture : Picture) : Pool :=
  if p.idle.length < p.capacity ∧ picture.layout = p.layout then
    { p with idle := p.idle ++ [picture] }
  else p

theorem giveBack_idle_le (p : Pool) (picture : Picture) (h : p.idle.length ≤ p.capacity) :
    (p.giveBack picture).idle.length ≤ (p.giveBack picture).capacity := by
  rw [giveBack]
  split
  · simp only [List.length_append, List.length_singleton]
    omega
  · exact h

theorem take_layout (p : Pool) (memory : Memory) : (p.take memory).2.layout = p.layout := by
  rw [take]
  split
  · rfl
  · split
    · rw [make]
      split <;> rfl
    · split
      · rfl
      · rw [make]
        split <;> rfl

end Pool

end InverseTelecine
