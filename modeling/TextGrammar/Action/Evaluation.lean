import TextGrammar.Action.Arithmetic
import TextGrammar.Action.Operand
import TextGrammar.Grammar.Expr

/-! # Evaluating actions

An action reads the frames of the sequences being matched in its rule, the innermost first, and
has a table of locals of its own. -/

namespace TextGrammar.Action

/-- The captures of the bound fields of a sequence that are matched so far, by slot. -/
abbrev Frame := List (Option Capture)

/-- The locals of an action by slot, those without a value yet among them. -/
abbrev Locals := List (Option Value)

/-- Changes locals, or fails. -/
abbrev Evaluation := StateT Locals (Except Fault)

/-- Whether the statements after one are to be run, or the enclosing loop is to be left. -/
inductive Flow where
  | onward
  | left
deriving DecidableEq, Repr

def captureAt (frames : List Frame) (name : String) (depth slot : Nat) :
    Except Fault Capture :=
  match frames[depth]? with
  | some frame =>
    match frame[slot]? with
    | some (some c) => .ok c
    | _ => .error (.undefinedVariable name)
  | none => .error (.undefinedVariable name)

def readLocal (name : String) (slot : Nat) : Evaluation Value := fun locals =>
  match locals[slot]? with
  | some (some v) => .ok (v, locals)
  | _ => .error (.undefinedVariable name)

def writeLocal (name : String) (slot : Nat) (v : Value) : Evaluation Unit := fun locals =>
  if slot < locals.length then .ok ((), locals.set slot (some v))
  else .error (.undefinedVariable name)

def asInteger (o : Operand) : Except Fault Int64 :=
  match o.toValue with
  | .int n => .ok n
  | other => .error (.typeMismatch "integer" other.typeName)

/-- Runs the body of a loop a number of times, for the integers from `i` on, until it is left. -/
def runLoop (name : String) (slot : Nat) (body : Evaluation Flow) :
    (count : Nat) → (i : Int) → Evaluation Unit
  | 0, _ => return ()
  | count + 1, i => do
    writeLocal name slot (.int (Int64.ofInt i))
    match ← body with
    | .left => return ()
    | .onward => runLoop name slot body count (i + 1)

mutual

/-- Evaluates an expression. The position of an index is evaluated before its base. -/
def operand (frames : List Frame) : Expr → Evaluation Operand
  | .literal v => return .borrowed v
  | .captured name depth slot => do
    let c ← captureAt frames name depth slot
    return .captured c
  | .fetch name slot => do
    let v ← readLocal name slot
    return .borrowed v
  | .index base position => do
    let position ← operand frames position
    let base ← operand frames base
    base.index position.toValue
  | .field base name => do
    let base ← operand frames base
    base.field name
  | .call callee arguments =>
    match Builtin.ofName? callee with
    | none => throw (.unknownBuiltin callee)
    | some b =>
      match arguments with
      | [argument] => do
        let o ← operand frames argument
        return .owned (← b.apply o)
      | arguments => throw (.arity callee 1 arguments.length)
  | .binary op lhs rhs => do
    let lhs ← operand frames lhs
    let rhs ← operand frames rhs
    return .owned (← binary op lhs.toValue rhs.toValue)
  | .list items => do
    let items ← values frames items
    return .owned (.list items)
  | .record fields => do
    let fields ← fieldValues frames fields
    return .owned (.record (Record.ofList fields))
  | .block (.mk stmts result) => do
    runAll frames stmts
    let v ← resultValue frames result
    return .owned v

def values (frames : List Frame) : List Expr → Evaluation (List Value)
  | [] => return []
  | e :: es => do
    let o ← operand frames e
    let vs ← values frames es
    return o.toValue :: vs

def fieldValues (frames : List Frame) : List (String × Expr) → Evaluation (List (String × Value))
  | [] => return []
  | (name, e) :: rest => do
    let o ← operand frames e
    let fields ← fieldValues frames rest
    return (name, o.toValue) :: fields

def resultValue (frames : List Frame) : Option Expr → Evaluation Value
  | none => return .null
  | some e => do
    let o ← operand frames e
    return o.toValue

def runAll (frames : List Frame) : List Stmt → Evaluation Unit
  | [] => return ()
  | s :: rest => do
    let _ ← run frames s
    runAll frames rest

def runStmts (frames : List Frame) : List Stmt → Evaluation Flow
  | [] => return .onward
  | s :: rest => do
    match ← run frames s with
    | .left => return .left
    | .onward => runStmts frames rest

/-- Runs a block of a statement. Its value is evaluated, but not used. -/
def runBlock (frames : List Frame) : Block → Evaluation Flow
  | .mk stmts result => do
    match ← runStmts frames stmts with
    | .left => return .left
    | .onward =>
      let _ ← resultValue frames result
      return .onward

def runOtherwise (frames : List Frame) : Option Block → Evaluation Flow
  | none => return .onward
  | some b => runBlock frames b

def run (frames : List Frame) : Stmt → Evaluation Flow
  | .bind name slot value => do
    let o ← operand frames value
    writeLocal name slot o.toValue
    return .onward
  | .assign name slot .set value => do
    let o ← operand frames value
    writeLocal name slot o.toValue
    return .onward
  | .assign name slot .append value => do
    let o ← operand frames value
    let old ← readLocal name slot
    let new ← append old o.toValue
    writeLocal name slot new
    return .onward
  | .loop name slot start stop body => do
    let start ← operand frames start
    let start ← asInteger start
    let stop ← operand frames stop
    let stop ← asInteger stop
    let count := (stop.toInt - start.toInt).toNat
    runLoop name slot (runBlock frames body) count start.toInt
    return .onward
  | .branch condition yes no => do
    let o ← operand frames condition
    match o.toValue with
    | .bool true => runBlock frames yes
    | .bool false => runOtherwise frames no
    | other => throw (.typeMismatch "bool" other.typeName)
  | .leave => return .left

end

/-- The value of the body of an action with a number of locals. -/
def evaluate (locals : Nat) (body : Expr) (frames : List Frame) : Except Fault Value :=
  ((operand frames body).run (List.replicate locals none)).map fun (o, _) => o.toValue

end TextGrammar.Action
