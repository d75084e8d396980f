import TextGrammar.Compile.Finding
import TextGrammar.Compile.Nullable

/-! # Left recursion

A rule that can enter itself before any input is consumed would never end. The rules that a
rule may enter so form a graph; a depth-first search from every rule reports the cycles it
closes, each by the rule at which it was closed, and no more than one for a rule. -/

namespace TextGrammar.Compile

mutual

/-- Adds the rules that a pattern may enter before it consumes input to those found before, and
says whether the pattern is nullable. -/
def entered (known : List Nat) : Pattern → List Nat → Bool × List Nat
  | .sequence _ fields, found | .action _ fields _ _, found => enteredByFields known fields found
  | .choice alternatives, found => enteredByAny known alternatives found
  | .repetition body, found | .negation body, found => (true, (entered known body found).2)
  | .rule index _, found =>
    (known.contains index, if found.contains index then found else found ++ [index])
  | .leaf _, found => (false, found)
  | .literal text, found => (text.isEmpty, found)

/-- A sequence may enter what its fields do, up to the first one that must consume input. -/
def enteredByFields (known : List Nat) : List (Option Binding × Pattern) → List Nat →
    Bool × List Nat
  | [], found => (true, found)
  | (_, p) :: rest, found =>
    match entered known p found with
    | (true, found) => enteredByFields known rest found
    | (false, found) => (false, found)

def enteredByAny (known : List Nat) : List Pattern → List Nat → Bool × List Nat
  | [], found => (false, found)
  | p :: ps, found =>
    let (first, found) := entered known p found
    let (others, found) := enteredByAny known ps found
    (first || others, found)

end

/-- The rules that a rule may enter before it consumes input, in the order of the pattern. -/
def enteredFrom (rules : List Rule) (known : List Nat) (index : Nat) : List Nat :=
  match rules[index]? with
  | some r => (entered known r.body []).2
  | none => []

/-- The state of the search: the rules seen so far, and the cycles reported so far, each from the
rule on at which it was closed. -/
structure Search where
  visited : List Nat
  cycles : List (List Nat)

/-- Whether a cycle was closed at a rule already. -/
def Search.reported (s : Search) (index : Nat) : Bool :=
  s.cycles.any fun cycle => cycle.head? == some index

/-- Visits a rule and all that can be reached from it. The stack holds the rules on the way to
it, the latest last; no way is longer than the table, which bounds `steps`. -/
def search (next : Nat → List Nat) : (steps : Nat) → (stack : List Nat) → Search → Nat → Search
  | steps, stack, s, index =>
    if stack.contains index then
      if s.reported index then s
      else { s with cycles := s.cycles ++ [stack.dropWhile (· != index)] }
    else if s.visited.contains index then s
    else
      match steps with
      | 0 => s
      | steps + 1 =>
        (next index).foldl (search next steps (stack ++ [index]))
          { s with visited := index :: s.visited }

def cycles (rules : List Rule) (known : List Nat) : List (List Nat) :=
  ((List.range rules.length).foldl
    (search (enteredFrom rules known) (rules.length + 1) []) ⟨[], []⟩).cycles

/-- The finding for a cycle: the names on it and that of its first rule again, at the place where
the first rule is named. -/
def cycleFinding (rules : List Rule) (spans : List Span) (cycle : List Nat) : Finding :=
  let first := cycle.headD 0
  ⟨spans.getD first default, .leftRecursion ((cycle ++ [first]).map (Grammar.nameIn rules))⟩

/-- What is found about left recursion in a table whose rules are named at some places. -/
def leftRecursionFindings (rules : List Rule) (spans : List Span) (known : List Nat) :
    List Finding :=
  (cycles rules known).map (cycleFinding rules spans)

end TextGrammar.Compile
