import TextGrammar.Operator

/-! # Faults of actions

A fault in an action ends the run that evaluates it. -/

namespace TextGrammar.Action

inductive Fault where
  | undefinedVariable (name : String)
  | indexOutOfRange (index : Int64) (length : Nat)
  | unknownBuiltin (name : String)
  | arity (name : String) (expected found : Nat)
  | operandMismatch (op : Operator) (lhs rhs : String)
  | typeMismatch (expected found : String)
  | missingField (name : String)
  | conversion (value target : String)
  | overflow
deriving DecidableEq, Repr

def Fault.message : Fault → String
  | .undefinedVariable name => "undefined variable `" ++ name ++ "`"
  | .indexOutOfRange index length =>
    "index " ++ toString index.toInt ++ " is out of range for a sequence of length " ++
      toString length
  | .unknownBuiltin name => "unknown builtin `" ++ name ++ "`"
  | .arity name expected found =>
    "`" ++ name ++ "` takes " ++ toString expected ++ " argument(s) but " ++ toString found ++
      " were supplied"
  | .operandMismatch op lhs rhs =>
    "cannot apply `" ++ op.symbol ++ "` to " ++ lhs ++ " and " ++ rhs
  | .typeMismatch expected found => "expected " ++ expected ++ ", found " ++ found
  | .missingField name => "record has no field `" ++ name ++ "`"
  | .conversion value target => "cannot convert " ++ value ++ " to " ++ target
  | .overflow => "integer overflow"

end TextGrammar.Action
