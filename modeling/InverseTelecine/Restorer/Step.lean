import InverseTelecine.Field.Donor
import InverseTelecine.Field.Weave
import InverseTelecine.Options
import InverseTelecine.Retiming.Clock

namespace InverseTelecine

structure InputStream where
  layout : Layout
  pace : Pace
deriving DecidableEq, Repr

structure Tally where
  accepted : Nat
  emitted : Nat
  skipped : Nat
  kept : Nat
  dropped : Nat
  unpaired : Nat
deriving DecidableEq, Repr

def Tally.zero : Tally := ⟨0, 0, 0, 0, 0, 0⟩

structure Restorer where
  options : Options
  stream : InputStream
  cadence : Cadence
  retiming : Retiming
  donor : Donor
  slots : List Picture
  skip : Nat
  clock : Clock
  tally : Tally
deriving DecidableEq, Repr

/-- A computation on a restorer; what it changed before it stopped stays changed. -/
abbrev Step (α : Type) := EStateM (Stop FilterError) Restorer α

namespace Restorer

def fillSlot (index : Nat) (fill : Restorer → Picture → Picture.Write FilterError) : Step Unit :=
  fun r =>
    match r.slots[index]? with
    | none => .error (.fault .slotOutOfRange) r
    | some slot =>
      match fill r slot with
      | .error f => .error (.fault f) r
      | .ok (.error e, picture) => .error (.error e) { r with slots := r.slots.set index picture }
      | .ok (.ok (), picture) => .ok () { r with slots := r.slots.set index picture }

def keepInput (input : Picture) : Step Unit := fun r =>
  match r.donor.keep input with
  | .error f => .error (.fault f) r
  | .ok (.error e, donor) => .error (.error (.media e)) { r with donor }
  | .ok (.ok (), donor) => .ok () { r with donor }

def freeDonor : Step Unit := modify fun r => { r with donor := r.donor.free }

def takeSlot : Step Nat :=
  modifyGet fun r => (r.cadence.takeSlot.1, { r with cadence := r.cadence.takeSlot.2 })

def nextSlot : Step Nat :=
  modifyGet fun r => (r.cadence.nextSlot.1, { r with cadence := r.cadence.nextSlot.2 })

def isFull : Step Bool := do return (← get).donor.full

def count (f : Tally → Tally) : Step Unit := modify fun r => { r with tally := f r.tally }

/-- One field left in the donor: it is shown whole, and the next slot is read. Gives the number of
slots filled and the fields of the current one. -/
def showDonor (len : Nat) : Step (Nat × Nat) := do
  if len = 1 ∧ (← isFull) then
    fillSlot 0 fun r slot => slot.replaceBy r.donor.picture
    freeDonor
    return (1, ← nextSlot)
  else return (0, len)

/-- Weaves the input with the donor, or copies it; keeps it as the donor when its second field
belongs to the next picture. Gives the number of slots filled and the duplicate fields that follow. -/
def showInput (input : Picture) (filled len : Nat) : Step (Nat × Nat) := do
  if ← isFull then
    fillSlot filled fun r slot => slot.weave input r.donor.picture r.options.first
    freeDonor
    if len ≤ 2 then keepInput input
    return (filled + 1, len - 3)
  else if 2 ≤ len then
    fillSlot filled fun _ slot => slot.replaceBy input
    return (filled + 1, len - 2)
  else if len = 1 then
    fillSlot filled fun _ slot => slot.replaceBy input
    keepInput input
    return (filled + 1, 0)
  else return (filled, len)

/-- A duplicate that is the donor's own second field leaves nothing to pair. -/
def dropUnpaired (len : Nat) : Step (Nat × List Event) := do
  if len = 1 ∧ (← isFull) then
    freeDonor
    count fun s => { s with unpaired := s.unpaired + 1 }
    return (0, [.unpairedDropped])
  else return (len, [])

def showSlots (input : Picture) : Step (Nat × List Event) := do
  let len ← takeSlot
  if len = 0 then
    count fun s => { s with dropped := s.dropped + 1 }
    return (0, [.emptySlot (← get).cadence.text])
  else
    let (filled, len) ← showDonor len
    let (filled, len) ← showInput input filled len
    let (skip, dropped) ← dropUnpaired len
    modify fun r => { r with skip }
    let r ← get
    return (filled, dropped ++ [.cadenceStepped filled r.skip r.donor.full r.cadence.position])

def step (input : Picture) : Step (Nat × List Event) := do
  let skip := (← get).skip
  if 2 ≤ skip then
    modify fun r => { r with skip := skip - 2 }
    count fun s => { s with skipped := s.skipped + 1 }
    return (0, [.duplicateSkipped (skip - 2)])
  else if skip = 1 then
    keepInput input
    modify fun r => { r with skip := 0 }
    count fun s => { s with kept := s.kept + 1 }
    return (0, [.donorKept])
  else showSlots input

end Restorer

end InverseTelecine
