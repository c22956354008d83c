import InverseTelecine.Media.Error
import InverseTelecine.Number.Rational
import InverseTelecine.Text.Blank
import InverseTelecine.Text.Decimal
import InverseTelecine.Text.Split

namespace InverseTelecine.Rational

open Text

def terms (a : Rational) : String := decimalText a.num ++ "/" ++ decimalText a.den

def text (a : Rational) : String := if a.den = 1 then decimalText a.num else a.terms

def describe (a : Rational) : String := "Rational(" ++ a.terms ++ ")"

def isTermSeparator (c : Char) : Bool := c == '/' || c == ':'

def splitTerms (s : List Char) : List Char × List Char :=
  match splitFirst? isTermSeparator s with
  | some (num, den) => (trim num, trim den)
  | none => (s, ['1'])

def numbers? (s : List Char) : Option (Int × Int) := do
  let (num, den) := splitTerms (trim s)
  return (← integer? num, ← integer? den)

def read? (s : List Char) : Except Fault (Option Rational) :=
  match numbers? s with
  | none => .ok none
  | some (num, den) => ofTerms? num den

def parse (s : String) : Except (Stop MediaError) Rational :=
  match read? s.toList with
  | .error f => .error (.fault f)
  | .ok (some a) => .ok a
  | .ok none =>
    .error (.error (.badParameter ("invalid rational '" ++ String.ofList (trim s.toList) ++ "'")))

end InverseTelecine.Rational
