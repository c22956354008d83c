import InverseTelecine.Emission

namespace InverseTelecine.CommandLine

/-- A pool, and the output. A failing output is left empty. -/
structure Disk where
  pool : Pool
  written : Array UInt8
  waiting : Nat
  sent : Array Nat
  failure : Option String

def poolIdle : Nat := 4

def bufferSize : Nat := 8192

def Disk.blank (l : Layout) (failure : Option String) : Disk :=
  ⟨Pool.empty l poolIdle none, #[], 0, #[], failure⟩

def Disk.supply (memory : Memory) : Supply Disk where
  layout d := d.pool.layout
  take d := ((d.pool.take memory).1, { d with pool := (d.pool.take memory).2 })

def wait? (waiting : Nat) (row : Array UInt8) : Option Nat :=
  if waiting + row.size ≤ bufferSize ∧ row.size < bufferSize then some (waiting + row.size) else none

/-- The bytes waiting after one more row. If that makes some due, all before the row are, and with them a
row that is too long to be kept. -/
def wait (waiting : Nat) (row : Array UInt8) : Nat :=
  (wait? waiting row).getD (if row.size < bufferSize then row.size else 0)

def Disk.put (d : Disk) (p : Picture) : Except FilterError Unit × Disk :=
  match d.failure with
  | none =>
    let written := d.written ++ p.unpadded
    let waiting := p.visible.flatten.foldl wait d.waiting
    let sent := d.sent.push (written.size - waiting)
    (.ok (), { d with written, waiting, sent, pool := d.pool.giveBack p })
  | some text =>
    match p.visible.flatten.foldlM wait? d.waiting with
    | some waiting => (.ok (), { d with waiting, pool := d.pool.giveBack p })
    | none => (.error (.sink text), d)

def Disk.flushFailure (d : Disk) : Option String := if d.waiting = 0 then none else d.failure

theorem wait_le (waiting : Nat) (row : Array UInt8) : wait waiting row ≤ bufferSize := by
  rw [wait, wait?]
  split
  · rename_i fits
    exact fits.1
  · simp only [Option.getD_none]
    split <;> omega

def Disk.endpoints (memory : Memory) : Endpoints Disk where
  toSupply := Disk.supply memory
  push d frame := d.put frame.picture

end InverseTelecine.CommandLine
