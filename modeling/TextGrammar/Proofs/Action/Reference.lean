import TextGrammar.Proofs.Matching.Bound

/-! # Evaluation by name

A second evaluator reads the actions of a source as they are written, with no slots. It keeps the
locals of each open block under their names and the fields that each enclosing sequence has
passed. A name means the latest local of the innermost open block that has it, or else a field of
the innermost sequence that has it. -/

namespace TextGrammar.Reference
open TextGrammar.Action (Fault Operand Builtin Flow asInteger append)
open Matching (Passed captureOf?)

abbrev Scopes := List (List (String × Value))

abbrev Reading := StateT Scopes (Except Fault)

def localOf? (scopes : Scopes) (name : String) : Option Value :=
  scopes.findSome? fun scope => scope.lookup name

def fieldOf? (passed : List Passed) (name : String) : Option Capture :=
  passed.findSome? fun m => captureOf? m name

def replace (name : String) (v : Value) : List (String × Value) → List (String × Value)
  | [] => []
  | (other, w) :: rest =>
    if name = other then (other, v) :: rest else (other, w) :: replace name v rest

/-- Open blocks with a new value for the local that a name means. -/
def assign (name : String) (v : Value) : Scopes → Scopes
  | [] => []
  | scope :: outer =>
    if (scope.lookup name).isSome then replace name v scope :: outer
    else scope :: assign name v outer

def declare (name : String) (v : Value) : Scopes → Scopes
  | [] => [[(name, v)]]
  | scope :: outer => ((name, v) :: scope) :: outer

def readLocal (name : String) : Reading Value := do
  match localOf? (← get) name with
  | some v => return v
  | none => throw (.undefinedVariable name)

def writeLocal (name : String) (v : Value) : Reading Unit := do
  match localOf? (← get) name with
  | some _ => modify (assign name v)
  | none => throw (.undefinedVariable name)

def readName (passed : List Passed) (name : String) : Reading Operand := do
  match localOf? (← get) name with
  | some v => return .borrowed v
  | none =>
    match fieldOf? passed name with
    | some c => return .captured c
    | none => throw (.undefinedVariable name)

def inBlock {α : Type} (m : Reading α) : Reading α := do
  modify ([] :: ·)
  let x ← m
  modify List.tail
  return x

/-- Runs the body of a loop for the integers from `i` on, each time in a block with the loop
variable, until it is left. -/
def runLoop (name : String) (body : Reading Flow) : (count : Nat) → (i : Int) → Reading Unit
  | 0, _ => return ()
  | count + 1, i => do
    let flow ← inBlock do
      modify (declare name (.int (Int64.ofInt i)))
      body
    match flow with
    | .left => return ()
    | .onward => runLoop name body count (i + 1)

mutual

/-- Evaluates an expression. The position of an index is evaluated before its base. -/
def operand (passed : List Passed) : Source.Expr → Reading Operand
  | .int _ n => return .borrowed (.int n)
  | .float _ x => return .borrowed (.float x)
  | .str _ s => return .borrowed (.str s)
  | .bool _ b => return .borrowed (.bool b)
  | .null _ => return .borrowed .null
  | .name _ name => readName passed name
  | .index _ base position => do
    let position ← operand passed position
    let base ← operand passed base
    base.index position.toValue
  | .field _ base name => do
    let base ← operand passed base
    base.field name.text
  | .call _ callee arguments =>
    match Builtin.ofName? callee.text with
    | none => throw (.unknownBuiltin callee.text)
    | some b =>
      match arguments with
      | [argument] => do
        let o ← operand passed argument
        return .owned (← b.apply o)
      | arguments => throw (.arity callee.text 1 arguments.length)
  | .binary _ op lhs rhs => do
    let lhs ← operand passed lhs
    let rhs ← operand passed rhs
    return .owned (← Action.binary op lhs.toValue rhs.toValue)
  | .list _ items => do
    let items ← values passed items
    return .owned (.list items)
  | .record _ fields => do
    let fields ← fieldValues passed fields
    return .owned (.record (Record.ofList fields))
  | .block _ (.mk stmts result) => inBlock do
    let _ ← runStmts passed stmts
    let v ← resultValue passed result
    return .owned v

def values (passed : List Passed) : List Source.Expr → Reading (List Value)
  | [] => return []
  | e :: es => do
    let o ← operand passed e
    let vs ← values passed es
    return o.toValue :: vs

def fieldValues (passed : List Passed) :
    List (Source.Name × Source.Expr) → Reading (List (String × Value))
  | [] => return []
  | (name, e) :: rest => do
    let o ← operand passed e
    let fields ← fieldValues passed rest
    return (name.text, o.toValue) :: fields

def resultValue (passed : List Passed) : Option Source.Expr → Reading Value
  | none => return .null
  | some e => do
    let o ← operand passed e
    return o.toValue

def runStmts (passed : List Passed) : List Source.Stmt → Reading Flow
  | [] => return .onward
  | s :: rest => do
    match ← run passed s with
    | .left => return .left
    | .onward => runStmts passed rest

/-- Runs a block of a statement. Its value is evaluated, but not used. -/
def runBlock (passed : List Passed) : Source.Block → Reading Flow
  | .mk stmts result => inBlock do
    match ← runStmts passed stmts with
    | .left => return .left
    | .onward =>
      let _ ← resultValue passed result
      return .onward

def runOtherwise (passed : List Passed) : Option Source.Block → Reading Flow
  | none => return .onward
  | some b => runBlock passed b

def run (passed : List Passed) : Source.Stmt → Reading Flow
  | .bind _ name _ value => do
    let o ← operand passed value
    modify (declare name.text o.toValue)
    return .onward
  | .assign _ name .set value => do
    let o ← operand passed value
    writeLocal name.text o.toValue
    return .onward
  | .assign _ name .append value => do
    let o ← operand passed value
    let old ← readLocal name.text
    let new ← append old o.toValue
    writeLocal name.text new
    return .onward
  | .loop _ name start stop body => do
    let start ← operand passed start
    let start ← asInteger start
    let stop ← operand passed stop
    let stop ← asInteger stop
    let count := (stop.toInt - start.toInt).toNat
    runLoop name.text (runBlock passed body) count start.toInt
    return .onward
  | .branch _ condition yes no => do
    let o ← operand passed condition
    match o.toValue with
    | .bool true => runBlock passed yes
    | .bool false => runOtherwise passed no
    | other => throw (.typeMismatch "bool" other.typeName)
  | .leave _ => return .left

end

def evaluate (passed : List Passed) (e : Source.Expr) : Except Fault Value :=
  ((operand passed e).run []).map fun (o, _) => o.toValue

end TextGrammar.Reference
