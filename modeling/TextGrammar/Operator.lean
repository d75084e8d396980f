/-! # Operators of actions -/

namespace TextGrammar

inductive Operator where
  | add | sub | mul
  | equal | notEqual | less | lessEqual | greater | greaterEqual
deriving DecidableEq, Repr

namespace Operator

def symbol : Operator → String
  | .add => "+"
  | .sub => "-"
  | .mul => "*"
  | .equal => "=="
  | .notEqual => "!="
  | .less => "<"
  | .lessEqual => "<="
  | .greater => ">"
  | .greaterEqual => ">="

end Operator

/-- What an assignment does with the old value of its variable. -/
inductive AssignMode where
  | set
  | append
deriving DecidableEq, Repr

def AssignMode.symbol : AssignMode → String
  | .set => "="
  | .append => "+="

end TextGrammar
