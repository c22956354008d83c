import InverseTelecine.Text.Json

namespace InverseTelecine.Text.Json

def variant? : Json → Option String
  | string (some s) => some s
  | object [(some s, null)] => some s
  | _ => none

def natural? (greatest : Nat) : Json → Option Nat
  | integer n => if 0 ≤ n ∧ n ≤ greatest then some n.toNat else none
  | _ => none

def string? : Json → Option String
  | string s => s
  | _ => none

def member? (members : List (Option String × Json)) (name : String) : Option (Option Json) :=
  match members.filter fun m => m.1 = some name with
  | [] => some none
  | [m] => some (some m.2)
  | _ => none

def fields? (names : List String) : Json → Option (List (Option Json))
  | array items =>
    if items.length ≤ names.length then
      some (items.map some ++ List.replicate (names.length - items.length) none)
    else none
  | object members =>
    if members.all fun m => m.1.isSome then names.mapM (member? members) else none
  | _ => none

def field? {α : Type} (read : Json → Option α) (absent : Option α) : Option Json → Option α
  | none => absent
  | some json => read json

def writeRecord (fields : List (String × String)) : String :=
  "\x7b" ++ String.intercalate "," (fields.map fun (name, value) => quote name ++ ":" ++ value) ++ "\x7d"

end InverseTelecine.Text.Json
