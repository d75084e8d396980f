import TextGrammar.Grammar.Expr

/-! # Compiled grammars

A grammar is a table of named patterns, the rules, and refers to rules by their place in the
table. -/

namespace TextGrammar

/-- The patterns that read typed text: the rest of a line, a float, an integer. -/
inductive Leaf where
  | line
  | float
  | integer
deriving DecidableEq, Repr

namespace Leaf

def name : Leaf → String
  | .line => "str"
  | .float => "f64"
  | .integer => "i64"

def ofName? (name : String) : Option Leaf :=
  if name = "str" then some .line
  else if name = "f64" then some .float
  else if name = "i64" then some .integer
  else none

end Leaf

/-- Where a sequence keeps the capture of a field: the name of the field in the record that the
sequence yields, and a slot of the frame of the sequence. -/
structure Binding where
  name : String
  slot : Nat
deriving DecidableEq, Repr

/-- Patterns. A sequence has a frame with a number of slots for its bound fields. An action is
a sequence with an expression for its value, which has a number of locals. The new name of a
rule reference serves the display. -/
inductive Pattern where
  | leaf (l : Leaf)
  | literal (text : String)
  | sequence (slots : Nat) (fields : List (Option Binding × Pattern))
  | action (slots : Nat) (fields : List (Option Binding × Pattern)) (locals : Nat) (body : Expr)
  | repetition (body : Pattern)
  | choice (alternatives : List Pattern)
  | negation (body : Pattern)
  | rule (index : Nat) (newName : Option String)

instance : Inhabited Pattern := ⟨.choice []⟩

abbrev Field := Option Binding × Pattern

/-- The pattern that never matches: a choice without alternatives. -/
def Pattern.never : Pattern := .choice []

structure Rule where
  name : String
  body : Pattern
deriving Inhabited

structure Grammar where
  rules : List Rule
  start : Nat
  start_lt : start < rules.length

namespace Grammar

/-- The grammar with a table and a start rule, if that rule is in the table. -/
def ofRules? (rules : List Rule) (start : Nat) : Option Grammar :=
  if h : start < rules.length then some ⟨rules, start, h⟩ else none

def rule? (g : Grammar) (index : Nat) : Option Rule := g.rules[index]?

def find? (g : Grammar) (name : String) : Option Nat := g.rules.findIdx? (·.name = name)

/-- The name of the rule at a place of a table, also for places that hold none. -/
def nameIn (rules : List Rule) (index : Nat) : String :=
  match rules[index]? with
  | some r => r.name
  | none => "<unknown>"

def nameOf (g : Grammar) (index : Nat) : String := nameIn g.rules index

end Grammar

end TextGrammar
