import TextGrammar.Compile.Finding
import TextGrammar.Grammar.Expr
import TextGrammar.Source.Tree

/-! # Resolving the names of an action

A name in an action means the innermost local declared before it in an open block, else the
field of the innermost enclosing sequence of its rule that has that name and is matched already.
Every declaration gets a local slot of its own, so an outer variable is untouched while another
of its name hides it. -/

namespace TextGrammar.Compile

/-- The names that a sequence has bound so far, the latest first, with their slots. -/
abbrev Scope := List (String × Nat)

structure Local where
  slot : Nat
  mutable : Bool

abbrev Locals := List (String × Local)

/-- What a name stands for. -/
inductive Meaning where
  | variable (l : Local)
  | capture (depth slot : Nat)
  | unbound

/-- The innermost scope that has a name, counted from `depth` on, and the slot in it. -/
def lookupCapture (depth : Nat) (name : String) : List Scope → Meaning
  | [] => .unbound
  | scope :: outer =>
    match scope.lookup name with
    | some slot => .capture depth slot
    | none => lookupCapture (depth + 1) name outer

def lookup (captures : List Scope) (locals : Locals) (name : String) : Meaning :=
  match locals.lookup name with
  | some l => .variable l
  | none => lookupCapture 0 name captures

/-- Numbers the locals of an action from zero on, and collects findings. -/
abbrev Numbering := StateT Nat Checked

def report (span : Span) (problem : Problem) : Numbering Unit := Checked.report span problem

/-- Declares a local: the latest one of its name, with a slot that no other local has. -/
def declareLocal (locals : Locals) (name : String) (mutable : Bool) : Numbering (Nat × Locals) :=
  fun slot => pure ((slot, (name, ⟨slot, mutable⟩) :: locals), slot + 1)

/-- The slot that an assignment writes; only mutable locals may be assigned. -/
def assignedSlot (captures : List Scope) (locals : Locals) (name : Source.Name) :
    Numbering Nat := do
  match lookup captures locals name.text with
  | .variable l =>
    if l.mutable then return l.slot
    else
      report name.span (.assignedImmutable name.text)
      return 0
  | .capture _ _ =>
    report name.span (.assignedCapture name.text)
    return 0
  | .unbound =>
    report name.span (.unboundName name.text)
    return 0

def lowerName (captures : List Scope) (locals : Locals) (span : Span) (name : String) :
    Numbering Expr := do
  match lookup captures locals name with
  | .variable l => return .fetch name l.slot
  | .capture depth slot => return .captured name depth slot
  | .unbound =>
    report span (.unboundName name)
    return .literal .null

mutual

def lowerExpr (captures : List Scope) (locals : Locals) : Source.Expr → Numbering Expr
  | .int _ n => return .literal (.int n)
  | .float _ x => return .literal (.float x)
  | .str _ s => return .literal (.str s)
  | .bool _ b => return .literal (.bool b)
  | .null _ => return .literal .null
  | .name span name => lowerName captures locals span name
  | .index _ base position => do
    let base ← lowerExpr captures locals base
    let position ← lowerExpr captures locals position
    return .index base position
  | .field _ base name => do
    let base ← lowerExpr captures locals base
    return .field base name.text
  | .call _ callee arguments => do
    let arguments ← lowerExprs captures locals arguments
    return .call callee.text arguments
  | .binary _ op lhs rhs => do
    let lhs ← lowerExpr captures locals lhs
    let rhs ← lowerExpr captures locals rhs
    return .binary op lhs rhs
  | .list _ items => do
    let items ← lowerExprs captures locals items
    return .list items
  | .record _ fields => do
    let fields ← lowerRecord captures locals [] fields
    return .record fields
  | .block _ body => do
    let body ← lowerBlock captures locals false body
    return .block body

def lowerExprs (captures : List Scope) (locals : Locals) :
    List Source.Expr → Numbering (List Expr)
  | [] => return []
  | e :: es => do
    let e ← lowerExpr captures locals e
    let es ← lowerExprs captures locals es
    return e :: es

/-- Resolves the names in the fields of a record constructor, which must be named apart from the
names `seen` before. -/
def lowerRecord (captures : List Scope) (locals : Locals) (seen : List String) :
    List (Source.Name × Source.Expr) → Numbering (List (String × Expr))
  | [] => return []
  | (name, e) :: rest => do
    if name.text ∈ seen then report name.span (.duplicateRecordField name.text)
    let e ← lowerExpr captures locals e
    let rest ← lowerRecord captures locals (name.text :: seen) rest
    return (name.text, e) :: rest

/-- Resolves the names of a block, which is run by a loop or not. -/
def lowerBlock (captures : List Scope) (locals : Locals) (inLoop : Bool) :
    Source.Block → Numbering Block
  | .mk stmts result => do
    let (stmts, locals) ← lowerStmts captures locals inLoop stmts
    let result ← lowerResult captures locals result
    return .mk stmts result

def lowerResult (captures : List Scope) (locals : Locals) :
    Option Source.Expr → Numbering (Option Expr)
  | none => return none
  | some e => do
    let e ← lowerExpr captures locals e
    return some e

def lowerOtherwise (captures : List Scope) (locals : Locals) (inLoop : Bool) :
    Option Source.Block → Numbering (Option Block)
  | none => return none
  | some b => do
    let b ← lowerBlock captures locals inLoop b
    return some b

/-- Resolves the names of some statements; each sees the locals declared before it. -/
def lowerStmts (captures : List Scope) (locals : Locals) (inLoop : Bool) :
    List Source.Stmt → Numbering (List Stmt × Locals)
  | [] => return ([], locals)
  | s :: rest => do
    let (s, locals) ← lowerStmt captures locals inLoop s
    let (rest, locals) ← lowerStmts captures locals inLoop rest
    return (s :: rest, locals)

/-- Resolves the names of a statement, and adds the local that it declares. An initial value does
not see the variable that it initialises, and a loop variable lives in its loop alone. -/
def lowerStmt (captures : List Scope) (locals : Locals) (inLoop : Bool) :
    Source.Stmt → Numbering (Stmt × Locals)
  | .bind _ name mutable value => do
    let value ← lowerExpr captures locals value
    let (slot, locals) ← declareLocal locals name.text mutable
    return (.bind name.text slot value, locals)
  | .assign _ name mode value => do
    let value ← lowerExpr captures locals value
    let slot ← assignedSlot captures locals name
    return (.assign name.text slot mode value, locals)
  | .loop _ name start stop body => do
    let start ← lowerExpr captures locals start
    let stop ← lowerExpr captures locals stop
    let (slot, inner) ← declareLocal locals name.text false
    let body ← lowerBlock captures inner true body
    return (.loop name.text slot start stop body, locals)
  | .branch _ condition yes no => do
    let condition ← lowerExpr captures locals condition
    let yes ← lowerBlock captures locals inLoop yes
    let no ← lowerOtherwise captures locals inLoop no
    return (.branch condition yes no, locals)
  | .leave span => do
    if !inLoop then report span .strayBreak
    return (.leave, locals)

end

def lowerAction (captures : List Scope) (body : Source.Expr) : Checked (Expr × Nat) :=
  (lowerExpr captures [] body).run 0

end TextGrammar.Compile
