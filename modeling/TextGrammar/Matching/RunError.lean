import TextGrammar.Action.Fault
import TextGrammar.LineMap

/-! # Outcomes other than a value

A run without a value has either found that the input does not match, or was ended by a fault. -/

namespace TextGrammar

/-- Why a run gives no value. -/
inductive RunError where
  | noMatch (offset : Nat) (location : Location)
  | action (rule : String) (fault : Action.Fault)
  | unknownRule (index : Nat)
  | unknownStart (name : String)
  | depthLimit (rule : String) (limit : Nat)
deriving DecidableEq, Repr

namespace RunError

/-- Whether the input was read to the point where it does not match. -/
def isNoMatch : RunError → Bool
  | .noMatch .. => true
  | _ => false

def message : RunError → String
  | .noMatch _ location =>
    "input does not match the grammar at " ++ toString location.line ++ ":" ++
      toString location.column
  | .action rule fault => "action of rule `" ++ rule ++ "` failed: " ++ fault.message
  | .unknownRule index =>
    "rule RuleHandle(" ++ toString index ++ ") does not exist in the grammar"
  | .unknownStart name => "no rule named `" ++ name ++ "` to start matching from"
  | .depthLimit rule limit =>
    "nesting limit of " ++ toString limit ++ " rules exceeded while entering `" ++ rule ++ "`"

end RunError

end TextGrammar
