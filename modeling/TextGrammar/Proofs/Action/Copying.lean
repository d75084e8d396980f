import TextGrammar.Action.Evaluation

/-! # Evaluation that copies first

A second evaluator turns each capture into a value as soon as it is read. Items, fields, lengths
and copies are then those of values, and nothing else is ever passed on. -/

namespace TextGrammar.Copying
open TextGrammar.Action (Fault Frame Evaluation Builtin Flow captureAt readLocal writeLocal runLoop
  append)

def item (v position : Value) : Except Fault Value :=
  match position, v with
  | .int n, .list items =>
    if h : 0 ≤ n.toInt ∧ n.toInt.toNat < items.length then .ok (items.get ⟨n.toInt.toNat, h.2⟩)
    else .error (.indexOutOfRange n items.length)
  | .int _, other => .error (.typeMismatch "list" other.typeName)
  | other, _ => .error (.typeMismatch "integer" other.typeName)

def field (v : Value) (name : String) : Except Fault Value :=
  match v with
  | .record fields =>
    match Record.get? fields name with
    | some w => .ok w
    | none => .error (.missingField name)
  | other => .error (.typeMismatch "record" other.typeName)

def length (v : Value) : Except Fault Value :=
  match v with
  | .list items => Action.counted items.length
  | .str s => Action.counted s.toList.length
  | other => .error (.typeMismatch "list or string" other.typeName)

def apply (b : Builtin) (v : Value) : Except Fault Value :=
  match b with
  | .len => length v
  | .clone => .ok v
  | .trim => Action.trimmed v
  | .str => Action.toText v
  | .num => Action.toNumber v
  | .int => Action.toInteger v

def integer (v : Value) : Except Fault Int64 :=
  match v with
  | .int n => .ok n
  | other => .error (.typeMismatch "integer" other.typeName)

mutual

/-- Evaluates an expression. The position of an index is evaluated before its base. -/
def value (frames : List Frame) : Expr → Evaluation Value
  | .literal v => return v
  | .captured name depth slot => do
    let c ← captureAt frames name depth slot
    return c.toValue
  | .fetch name slot => readLocal name slot
  | .index base position => do
    let position ← value frames position
    let base ← value frames base
    item base position
  | .field base name => do
    let base ← value frames base
    field base name
  | .call callee arguments =>
    match Builtin.ofName? callee with
    | none => throw (.unknownBuiltin callee)
    | some b =>
      match arguments with
      | [argument] => do
        let v ← value frames argument
        apply b v
      | arguments => throw (.arity callee 1 arguments.length)
  | .binary op lhs rhs => do
    let lhs ← value frames lhs
    let rhs ← value frames rhs
    Action.binary op lhs rhs
  | .list items => do
    let items ← values frames items
    return .list items
  | .record fields => do
    let fields ← fieldValues frames fields
    return .record (Record.ofList fields)
  | .block (.mk stmts result) => do
    runAll frames stmts
    resultValue frames result

def values (frames : List Frame) : List Expr → Evaluation (List Value)
  | [] => return []
  | e :: es => do
    let v ← value frames e
    let vs ← values frames es
    return v :: vs

def fieldValues (frames : List Frame) : List (String × Expr) → Evaluation (List (String × Value))
  | [] => return []
  | (name, e) :: rest => do
    let v ← value frames e
    let fields ← fieldValues frames rest
    return (name, v) :: fields

def resultValue (frames : List Frame) : Option Expr → Evaluation Value
  | none => return .null
  | some e => value frames e

def runAll (frames : List Frame) : List Stmt → Evaluation Unit
  | [] => return ()
  | s :: rest => do
    let _ ← run frames s
    runAll frames rest

def runStmts (frames : List Frame) : List Stmt → Evaluation Flow
  | [] => return .onward
  | s :: rest => do
    match ← run frames s with
    | .left => return .left
    | .onward => runStmts frames rest

/-- Runs a block of a statement. Its value is evaluated, but not used. -/
def runBlock (frames : List Frame) : Block → Evaluation Flow
  | .mk stmts result => do
    match ← runStmts frames stmts with
    | .left => return .left
    | .onward =>
      let _ ← resultValue frames result
      return .onward

def runOtherwise (frames : List Frame) : Option Block → Evaluation Flow
  | none => return .onward
  | some b => runBlock frames b

def run (frames : List Frame) : Stmt → Evaluation Flow
  | .bind name slot e => do
    let v ← value frames e
    writeLocal name slot v
    return .onward
  | .assign name slot .set e => do
    let v ← value frames e
    writeLocal name slot v
    return .onward
  | .assign name slot .append e => do
    let v ← value frames e
    let old ← readLocal name slot
    let new ← append old v
    writeLocal name slot new
    return .onward
  | .loop name slot start stop body => do
    let start ← value frames start
    let start ← integer start
    let stop ← value frames stop
    let stop ← integer stop
    let count := (stop.toInt - start.toInt).toNat
    runLoop name slot (runBlock frames body) count start.toInt
    return .onward
  | .branch condition yes no => do
    let v ← value frames condition
    match v with
    | .bool true => runBlock frames yes
    | .bool false => runOtherwise frames no
    | other => throw (.typeMismatch "bool" other.typeName)
  | .leave => return .left

end

def evaluate (locals : Nat) (body : Expr) (frames : List Frame) : Except Fault Value :=
  ((value frames body).run (List.replicate locals none)).map Prod.fst

end TextGrammar.Copying
