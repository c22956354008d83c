import InverseTelecine.Event

namespace InverseTelecine.CommandLine

structure Notice (α : Type) where
  after : Nat
  said : α
deriving DecidableEq, Repr

def noticesOf (written : Nat) (sent : List Nat) : List Event → List (Notice Event)
  | [] => []
  | event :: events =>
    match event, sent with
    | .frameEmitted .., total :: sent => ⟨written, event⟩ :: noticesOf total sent events
    | _, _ => ⟨written, event⟩ :: noticesOf written sent events

/-- The bytes that are written before each text and after the one before, the text with a line break, and
last the bytes after all texts. -/
def pieces (written : Nat) (bytes : List UInt8) : List (Notice String) → List (List UInt8 × String)
  | [] => [(bytes, "")]
  | notice :: notices =>
    let due := notice.after - written
    (bytes.take due, notice.said ++ "\n") :: pieces notice.after (bytes.drop due) notices

theorem noticesOf_said (written : Nat) (sent : List Nat) (events : List Event) :
    (noticesOf written sent events).map Notice.said = events := by
  induction events generalizing written sent with
  | nil => rfl
  | cons event events ih =>
    unfold noticesOf
    split <;> simp [ih]

theorem pieces_bytes (written : Nat) (bytes : List UInt8) (notices : List (Notice String)) :
    (pieces written bytes notices).flatMap Prod.fst = bytes := by
  induction notices generalizing written bytes with
  | nil => simp [pieces]
  | cons notice notices ih => simp [pieces, ih]

theorem pieces_texts (written : Nat) (bytes : List UInt8) (notices : List (Notice String)) :
    (pieces written bytes notices).map Prod.snd = notices.map (fun n => n.said ++ "\n") ++ [""] := by
  induction notices generalizing written bytes with
  | nil => rfl
  | cons notice notices ih => simp [pieces, ih]

end InverseTelecine.CommandLine
