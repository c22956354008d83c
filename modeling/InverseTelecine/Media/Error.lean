namespace InverseTelecine

inductive MediaError where
  | badParameter (text : String)
  | unsupported (text : String)
  | exhausted (text : String)
deriving DecidableEq, Repr

namespace MediaError

def message : MediaError → String
  | badParameter text => "Invalid parameter: " ++ text
  | unsupported text => "Unsupported: " ++ text
  | exhausted text => "Resource exhausted: " ++ text

def isShortage : MediaError → Bool
  | exhausted _ => true
  | _ => false

end MediaError

end InverseTelecine
