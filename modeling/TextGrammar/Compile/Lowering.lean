import TextGrammar.Compile.ActionScope
import TextGrammar.Grammar

/-! # Resolving the names of a grammar

The rules of a grammar form one flat namespace. Within a rule, a sequence binds the captures of
its fields to names: the override name of a field, else its label, else the name of the rule that
it refers to; a label that differs from that name stands for the same field. -/

namespace TextGrammar.Compile

/-- The rule that a name refers to: the first definition of the name, which is no leaf type. -/
def ruleIndex? (names : List String) (name : String) : Option Nat :=
  if (Leaf.ofName? name).isSome then none else names.findIdx? (· = name)

/-- What is wrong with the names of rules: the names of leaf types are reserved, and no name
is defined twice. -/
def ruleNameFindings (earlier : List String) : List Source.Rule → List Finding
  | [] => []
  | r :: rest =>
    let name := r.name.text
    let here :=
      if (Leaf.ofName? name).isSome then [⟨r.name.span, .reservedRuleName name⟩]
      else if name ∈ earlier then [⟨r.name.span, .duplicateRuleName name⟩]
      else []
    here ++ ruleNameFindings (name :: earlier) rest

/-- A leaf type, or a reference to a rule with the new name it may get. -/
def reference (names : List String) (span : Span) (name : String) (newName : Option String) :
    Checked Pattern := do
  match Leaf.ofName? name with
  | some l => return .leaf l
  | none =>
    match ruleIndex? names name with
    | some index => return .rule index newName
    | none =>
      Checked.report span (.unknownRule name)
      return .never

/-- Gives a name to a slot of a sequence, which must not have the name yet. -/
def bindName (scope : Scope) (name : Source.Name) (slot : Nat) : Checked Scope := do
  if (scope.lookup name.text).isSome then
    Checked.report name.span (.duplicateBinding name.text)
    return scope
  else return (name.text, slot) :: scope

/-- The name that a sequence binds a field to, if any: the override name of its pattern, else its
label, else the name of the rule it refers to. -/
def bindingKey? (field : Source.Field) : Option Source.Name :=
  match field.2.rename?, field.1, field.2.callee? with
  | some newName, _, _ => some newName
  | none, some label, _ => some label
  | none, none, some callee =>
    if (Leaf.ofName? callee).isSome then none else some ⟨callee, field.2.span⟩
  | none, none, none => none

/-- Binds a field to a slot under its key, and under its label if that differs. -/
def bindField (scope : Scope) (key : Source.Name) (label : Option Source.Name) (slot : Nat) :
    Checked Scope := do
  let scope ← bindName scope key slot
  match label with
  | some l => if l.text = key.text then return scope else bindName scope l slot
  | none => return scope

mutual

/-- Resolves the names of a pattern that stands in some sequences, the innermost first. -/
def lowerPattern (names : List String) (outer : List Scope) : Source.Pattern → Checked Pattern
  | .name span name => reference names span name none
  | .literal _ text => return .literal text
  | .sequence _ fields none => do
    let (_, slots, fields) ← lowerFields names outer [] 0 fields
    return .sequence slots fields
  | .sequence _ fields (some body) => do
    let (own, slots, fields) ← lowerFields names outer [] 0 fields
    let (body, locals) ← lowerAction (own :: outer) body
    return .action slots fields locals body
  | .repetition _ body => do
    let body ← lowerPattern names outer body
    return .repetition body
  | .choice _ alternatives => do
    let alternatives ← lowerPatterns names outer alternatives
    return .choice alternatives
  | .negation _ body => do
    let body ← lowerPattern names outer body
    return .negation body
  | .rename _ (.name span name) newName => do
    if (Leaf.ofName? name).isSome then
      Checked.report newName.span .misplacedRename
      reference names span name none
    else reference names span name (some newName.text)
  | .rename _ body newName => do
    Checked.report newName.span .misplacedRename
    lowerPattern names outer body

def lowerPatterns (names : List String) (outer : List Scope) :
    List Source.Pattern → Checked (List Pattern)
  | [] => return []
  | p :: ps => do
    let p ← lowerPattern names outer p
    let ps ← lowerPatterns names outer ps
    return p :: ps

/-- Resolves the names of the fields of a sequence that has bound the names `own` to `slots`
slots; every field sees the names of those before it. -/
def lowerFields (names : List String) (outer : List Scope) (own : Scope) (slots : Nat) :
    List (Option Source.Name × Source.Pattern) → Checked (Scope × Nat × List Field)
  | [] => return (own, slots, [])
  | (label, p) :: rest => do
    let q ← lowerPattern names (own :: outer) p
    match bindingKey? (label, p) with
    | some key =>
      let own ← bindField own key label slots
      let (own, total, rest) ← lowerFields names outer own (slots + 1) rest
      return (own, total, (some ⟨key.text, slots⟩, q) :: rest)
    | none =>
      let (own, total, rest) ← lowerFields names outer own slots rest
      return (own, total, (none, q) :: rest)

end

def lowerRules (names : List String) : List Source.Rule → Checked (List Rule)
  | [] => return []
  | r :: rest => do
    let body ← lowerPattern names [] r.body
    let rest ← lowerRules names rest
    return ⟨r.name.text, body⟩ :: rest

/-- The rule that a start pattern designates. -/
def lowerStart (names : List String) (p : Source.Pattern) : Checked (Option Nat) := do
  match p with
  | .name span name =>
    match ruleIndex? names name with
    | some index => return some index
    | none =>
      Checked.report span (.unknownStart name)
      return none
  | p =>
    Checked.report p.span .startIsNoName
    return none

/-- The start rule: one separator and one start pattern after it are asked for. -/
def lowerStarts (names : List String) (file : Source.File) : Checked (Option Nat) := do
  match file.separators with
  | [] =>
    Checked.report file.close .missingSeparator
    return none
  | _ :: extra =>
    extra.forM fun span => Checked.report span .extraSeparator
    match file.starts with
    | [] =>
      Checked.report file.close .missingStart
      return none
    | first :: rest =>
      rest.forM fun p => Checked.report p.span .extraStart
      lowerStart names first

/-- A grammar source with its names resolved: the rules and the place of the name of each, and
the start rule, if there is one. -/
structure Lowered where
  rules : List Rule
  spans : List Span
  start : Option Nat

def lower (file : Source.File) : Checked Lowered := do
  let names := file.rules.map (·.name.text)
  ⟨(), ruleNameFindings [] file.rules⟩
  let rules ← lowerRules names file.rules
  let start ← lowerStarts names file
  return ⟨rules, file.rules.map (·.name.span), start⟩

end TextGrammar.Compile
