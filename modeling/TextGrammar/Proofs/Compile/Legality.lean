import Mathlib.Logic.Relation
import TextGrammar.Proofs.Compile.Scopes

/-! # Legal sources

What a source must be like to have a grammar is said here of its syntax tree: which names may
stand where in it, and that no rule comes back to itself before input is consumed. Nothing is
resolved for that, and no table of rules is made. -/

namespace TextGrammar.Source
open Compile (Inside fieldNames ruleNames)

namespace Expr

def operands : Expr → List Expr
  | int _ _ | float _ _ | str _ _ | bool _ _ | null _ | name _ _ | block _ _ => []
  | index _ base position => [base, position]
  | field _ base _ => [base]
  | call _ _ arguments => arguments
  | binary _ _ lhs rhs => [lhs, rhs]
  | list _ items => items
  | record _ fields => fields.map Prod.snd

end Expr

abbrev Declared := List (String × Bool)

namespace Stmt

def operands : Stmt → List Expr
  | bind _ _ _ value | assign _ _ _ value => [value]
  | loop _ _ start stop _ => [start, stop]
  | branch _ condition _ _ => [condition]
  | leave _ => []

def declared : Stmt → Declared
  | bind _ name mutable _ => [(name.text, mutable)]
  | assign _ _ _ _ | loop _ _ _ _ _ | branch _ _ _ _ | leave _ => []

def declaredBy : List Stmt → Declared
  | [] => []
  | s :: rest => declaredBy rest ++ s.declared

end Stmt

/-- A part of an action. A block is run by a loop or not, and so is a statement. -/
inductive Part where
  | expr (e : Expr)
  | block (inLoop : Bool) (b : Block)
  | stmt (inLoop : Bool) (s : Stmt)

abbrev Site := Declared × Part

/-- A part of an action contains another one directly. A statement sees the locals declared before
it in its block. An expression block is run by no loop, whatever loop it stands in. -/
inductive Contains : Site → Site → Prop
  | operand {locals : Declared} {e e' : Expr} (he : e' ∈ e.operands) :
    Contains (locals, .expr e) (locals, .expr e')
  | body {locals : Declared} {span : Span} {b : Block} :
    Contains (locals, .expr (.block span b)) (locals, .block false b)
  | stmt {locals : Declared} {inLoop : Bool} {front back : List Stmt} {s : Stmt}
    {result : Option Expr} :
    Contains (locals, .block inLoop (.mk (front ++ s :: back) result))
      (Stmt.declaredBy front ++ locals, .stmt inLoop s)
  | result {locals : Declared} {inLoop : Bool} {stmts : List Stmt} {e : Expr} :
    Contains (locals, .block inLoop (.mk stmts (some e)))
      (Stmt.declaredBy stmts ++ locals, .expr e)
  | value {locals : Declared} {inLoop : Bool} {s : Stmt} {e : Expr} (he : e ∈ s.operands) :
    Contains (locals, .stmt inLoop s) (locals, .expr e)
  | round {locals : Declared} {inLoop : Bool} {span : Span} {name : Name} {start stop : Expr}
    {b : Block} :
    Contains (locals, .stmt inLoop (.loop span name start stop b))
      ((name.text, false) :: locals, .block true b)
  | yes {locals : Declared} {inLoop : Bool} {span : Span} {condition : Expr} {b : Block}
    {no : Option Block} :
    Contains (locals, .stmt inLoop (.branch span condition b no)) (locals, .block inLoop b)
  | no {locals : Declared} {inLoop : Bool} {span : Span} {condition : Expr} {yes b : Block} :
    Contains (locals, .stmt inLoop (.branch span condition yes (some b))) (locals, .block inLoop b)

def Occurs (e : Expr) : Site → Prop := Relation.ReflTransGen Contains ([], .expr e)

/-- An action is legal within some sequences, the innermost first, of which it sees some fields
each: it reads locals in scope and names of fields, assigns locals that are declared to be
assigned, leaves no loop but one that it is in, and gives every field of a record once. -/
structure LegalAction (scopes : List (List Field)) (e : Expr) : Prop where
  read : ∀ ⦃locals span name⦄, Occurs e (locals, .expr (.name span name)) →
    name ∈ locals.map Prod.fst ∨ ∃ fields ∈ scopes, ∃ f ∈ fields, name ∈ fieldNames f
  assigned : ∀ ⦃locals inLoop span name mode value⦄,
    Occurs e (locals, .stmt inLoop (.assign span name mode value)) →
    locals.lookup name.text = some true
  left : ∀ ⦃locals inLoop span⦄, Occurs e (locals, .stmt inLoop (.leave span)) → inLoop = true
  apart : ∀ ⦃locals span fields⦄, Occurs e (locals, .expr (.record span fields)) →
    (fields.map fun f => f.1.text).Nodup

def boundNames (fields : List Field) : List String := fields.flatMap fun f => (fieldNames f).dedup

/-- The body of a rule is legal among rules of some names. Its names are leaf types or rules, new
names are given to rules only, and each sequence binds a name once. -/
structure LegalBody (names : List String) (root : Pattern) : Prop where
  known : ∀ ⦃fronts span name⦄, Inside root fronts (.name span name) →
    (Leaf.ofName? name).isSome ∨ name ∈ names
  renamed : ∀ ⦃fronts span p newName⦄, Inside root fronts (.rename span p newName) →
    ∃ inner name, p = .name inner name ∧ Leaf.ofName? name = none ∧ name ∈ names
  bound : ∀ ⦃fronts span fields action⦄, Inside root fronts (.sequence span fields action) →
    (boundNames fields).Nodup
  action : ∀ ⦃fronts span fields e⦄, Inside root fronts (.sequence span fields (some e)) →
    LegalAction (fields :: fronts) e

section
variable (rules : List Rule)

/-- A pattern may match without consuming input. -/
inductive Nullable : Pattern → Prop
  | name {span : Span} {r : Rule} (hr : r ∈ rules) (hbody : Nullable r.body) :
    Nullable (.name span r.name.text)
  | literal {span : Span} : Nullable (.literal span "")
  | sequence {span : Span} {fields : List Field} {action : Option Expr}
    (hfields : ∀ f ∈ fields, Nullable f.2) : Nullable (.sequence span fields action)
  | repetition {span : Span} {p : Pattern} : Nullable (.repetition span p)
  | choice {span : Span} {ps : List Pattern} {p : Pattern} (hp : p ∈ ps) (h : Nullable p) :
    Nullable (.choice span ps)
  | negation {span : Span} {p : Pattern} : Nullable (.negation span p)
  | rename {span : Span} {p : Pattern} {newName : Name} (h : Nullable p) :
    Nullable (.rename span p newName)

/-- A pattern may enter what has a name before it consumes input: in a sequence, through a field
behind others that may match without consuming. -/
inductive Enters (name : String) : Pattern → Prop
  | name {span : Span} : Enters name (.name span name)
  | sequence {span : Span} {front back : List Field} {f : Field} {action : Option Expr}
    (hfront : ∀ g ∈ front, Nullable rules g.2) (h : Enters name f.2) :
    Enters name (.sequence span (front ++ f :: back) action)
  | repetition {span : Span} {p : Pattern} (h : Enters name p) : Enters name (.repetition span p)
  | choice {span : Span} {ps : List Pattern} {p : Pattern} (hp : p ∈ ps) (h : Enters name p) :
    Enters name (.choice span ps)
  | negation {span : Span} {p : Pattern} (h : Enters name p) : Enters name (.negation span p)
  | rename {span : Span} {p : Pattern} {newName : Name} (h : Enters name p) :
    Enters name (.rename span p newName)

/-- The body of a rule of one name may enter a rule of another name before it consumes input. -/
def LeadsTo (name other : String) : Prop :=
  ∃ r ∈ rules, r.name.text = name ∧ Enters rules other r.body

end

/-- A source is legal: its rules are named apart and not as leaf types, their bodies are legal,
one separator is followed by one start pattern, which is the name of a rule, and no rule comes
back to itself before input is consumed. -/
structure File.Legal (file : File) : Prop where
  distinct : (ruleNames file).Nodup
  unreserved : ∀ name ∈ ruleNames file, Leaf.ofName? name = none
  body : ∀ r ∈ file.rules, LegalBody (ruleNames file) r.body
  separated : ∃ span, file.separators = [span]
  started : ∃ span name, file.starts = [.name span name] ∧ name ∈ ruleNames file
  acyclic : ∀ name, ¬Relation.TransGen (LeadsTo file.rules) name name

end TextGrammar.Source
