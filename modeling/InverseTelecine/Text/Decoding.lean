namespace InverseTelecine.Text.Decoding

def replacement : Char := Char.ofNat 0xFFFD

structure Begun where
  bits : Nat
  lacking : Nat
  least : Nat
  greatest : Nat
deriving DecidableEq, Repr

/-- The bounds of the second byte keep out characters that have a shorter form, surrogates, and numbers
beyond the last character. -/
def lead? (b : Nat) : Option Begun :=
  if 0xC2 ≤ b ∧ b ≤ 0xDF then some ⟨b - 0xC0, 1, 0x80, 0xBF⟩
  else if b = 0xE0 then some ⟨0, 2, 0xA0, 0xBF⟩
  else if b = 0xED then some ⟨0x0D, 2, 0x80, 0x9F⟩
  else if 0xE1 ≤ b ∧ b ≤ 0xEF then some ⟨b - 0xE0, 2, 0x80, 0xBF⟩
  else if b = 0xF0 then some ⟨0, 3, 0x90, 0xBF⟩
  else if 0xF1 ≤ b ∧ b ≤ 0xF3 then some ⟨b - 0xF0, 3, 0x80, 0xBF⟩
  else if b = 0xF4 then some ⟨4, 3, 0x80, 0x8F⟩
  else none

structure State where
  text : String
  rest : Option Begun
deriving DecidableEq, Repr

namespace State

def start (text : String) (b : Nat) : State :=
  if b < 0x80 then ⟨text.push (Char.ofNat b), none⟩
  else match lead? b with
    | some begun => ⟨text, some begun⟩
    | none => ⟨text.push replacement, none⟩

def step (s : State) (byte : UInt8) : State :=
  let b := byte.toNat
  match s.rest with
  | none => start s.text b
  | some begun =>
    let bits := begun.bits * 64 + (b - 0x80)
    if b < begun.least ∨ begun.greatest < b then start (s.text.push replacement) b
    else if begun.lacking = 1 then ⟨s.text.push (Char.ofNat bits), none⟩
    else ⟨s.text, some ⟨bits, begun.lacking - 1, 0x80, 0xBF⟩⟩

def close (s : State) : String := if s.rest = none then s.text else s.text.push replacement

theorem step_ascii (text : String) (byte : UInt8) (h : byte.toNat < 0x80) :
    step ⟨text, none⟩ byte = ⟨text.push (Char.ofNat byte.toNat), none⟩ := by
  simp [step, start, h]

theorem foldl_ascii (bytes : List UInt8) (h : ∀ b ∈ bytes, b.toNat < 0x80) (text : String) :
    bytes.foldl step ⟨text, none⟩ =
      ⟨text ++ String.ofList (bytes.map fun b => Char.ofNat b.toNat), none⟩ := by
  induction bytes generalizing text with
  | nil => simp
  | cons byte rest ih =>
    rw [List.foldl_cons, step_ascii text byte (h byte (by simp)), ih (fun b hb => h b (by simp [hb])),
      String.push_eq_append, List.map_cons, String.ofList_cons, String.append_assoc]

end State

def decode (bytes : List UInt8) : String := (bytes.foldl State.step ⟨"", none⟩).close

theorem decode_ascii (bytes : List UInt8) (h : ∀ b ∈ bytes, b.toNat < 0x80) :
    decode bytes = String.ofList (bytes.map fun b => Char.ofNat b.toNat) := by
  rw [decode, State.foldl_ascii bytes h, State.close]
  simp

end InverseTelecine.Text.Decoding
