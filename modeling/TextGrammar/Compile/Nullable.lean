import TextGrammar.Grammar

/-! # Patterns that match without consuming

A rule is nullable if its pattern can match empty input. The nullable rules are found by going
over the table again and again, each time with all that is known so far, until a round finds
nothing new. -/

namespace TextGrammar.Compile

mutual

/-- Whether a pattern can match empty input when the rules in a list can. A line takes at least
its end, and a number at least a digit. -/
def isNullable (known : List Nat) : Pattern → Bool
  | .leaf _ => false
  | .literal text => text.isEmpty
  | .sequence _ fields | .action _ fields _ _ => areNullable known fields
  | .repetition _ | .negation _ => true
  | .choice alternatives => anyNullable known alternatives
  | .rule index _ => known.contains index

def areNullable (known : List Nat) : List (Option Binding × Pattern) → Bool
  | [] => true
  | (_, p) :: rest => isNullable known p && areNullable known rest

def anyNullable (known : List Nat) : List Pattern → Bool
  | [] => false
  | p :: ps => isNullable known p || anyNullable known ps

end

/-- One round over the rules from place `index` on; a rule that is found counts for those after
it in the same round. -/
def sweep (index : Nat) (known : List Nat) : List Rule → List Nat
  | [] => known
  | r :: rest =>
    let known :=
      if !known.contains index && isNullable known r.body then index :: known else known
    sweep (index + 1) known rest

/-- Rounds until one finds nothing new. -/
def settle (rules : List Rule) : (rounds : Nat) → List Nat → List Nat
  | 0, known => known
  | rounds + 1, known =>
    let next := sweep 0 known rules
    if next.length = known.length then known else settle rules rounds next

/-- The places of the nullable rules. Every round but the last finds a rule. -/
def nullableRules (rules : List Rule) : List Nat := settle rules (rules.length + 1) []

mutual

/-- The bodies of the repetitions in a pattern that can match empty input, outer before inner.
Such a repetition ends with its first iteration that consumes nothing. -/
def emptyRepetitions (known : List Nat) : Pattern → List Pattern
  | .repetition body =>
    (if isNullable known body then [body] else []) ++ emptyRepetitions known body
  | .sequence _ fields | .action _ fields _ _ => emptyRepetitionsOfFields known fields
  | .choice alternatives => emptyRepetitionsOfAll known alternatives
  | .negation body => emptyRepetitions known body
  | .leaf _ | .literal _ | .rule _ _ => []

def emptyRepetitionsOfFields (known : List Nat) : List (Option Binding × Pattern) → List Pattern
  | [] => []
  | (_, p) :: rest => emptyRepetitions known p ++ emptyRepetitionsOfFields known rest

def emptyRepetitionsOfAll (known : List Nat) : List Pattern → List Pattern
  | [] => []
  | p :: ps => emptyRepetitions known p ++ emptyRepetitionsOfAll known ps

end

end TextGrammar.Compile
