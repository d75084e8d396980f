import TextGrammar.Token.Literal

/-! # Faults of grammar sources

A source that is not in the grammar language is refused at its first fault. -/

namespace TextGrammar.Source

inductive Expected where
  | token (kind : Token.Kind)
  | ruleDefinition
  | pattern
  | expression
  | endOfInput
deriving DecidableEq, Repr

inductive Found where
  | token (kind : Token.Kind)
  | unterminatedString
  | invalidCharacter (text : List Char)
  | endOfInput
deriving DecidableEq, Repr

/-- Why a source is refused. -/
inductive Cause where
  | unexpected (expected : Expected) (found : Found)
  | nestingTooDeep
  | integerOutOfRange
  | literal (fault : Literal.Fault)
deriving DecidableEq, Repr

/-- A reason for refusing a source, with its place. -/
structure Fault where
  span : Span
  cause : Cause
deriving DecidableEq, Repr

def Expected.text : Expected → String
  | .token kind => kind.describe
  | .ruleDefinition => "rule definition"
  | .pattern => "pattern"
  | .expression => "expression"
  | .endOfInput => "end of input"

def Found.text : Found → String
  | .token kind => kind.describe
  | .unterminatedString => "unterminated string literal"
  | .invalidCharacter text => "invalid character `" ++ String.ofList text ++ "`"
  | .endOfInput => "end of input"

def Cause.message : Cause → String
  | .unexpected expected found => "expected " ++ expected.text ++ ", found " ++ found.text
  | .nestingTooDeep => "Nesting is too deep"
  | .integerOutOfRange => "Integer literal is out of range"
  | .literal fault => fault.message

def Found.ofTokens : List Token → Found
  | [] => .endOfInput
  | t :: _ =>
    match t.kind with
    | .invalid => if t.text.head? = some '"' then .unterminatedString else .invalidCharacter t.text
    | kind => .token kind

end TextGrammar.Source
