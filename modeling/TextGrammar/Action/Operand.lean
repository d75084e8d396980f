import TextGrammar.Action.Fault
import TextGrammar.Capture
import TextGrammar.Number.Reading
import TextGrammar.Text.Blank

/-! # Operands

Captures are read in place: only the part of a capture that an expression yields becomes a value.
An operand is a capture or a value that was not copied, or a value of its own. -/

namespace TextGrammar.Action

/-- What an expression yields before it is used: a capture of a frame, a value that is held by a
capture, a local or the expression, or a value that was computed. -/
inductive Operand where
  | captured (c : Capture)
  | borrowed (v : Value)
  | owned (v : Value)

namespace Operand

def typeName : Operand → String
  | .captured c => c.typeName
  | .borrowed v => v.typeName
  | .owned v => v.typeName

/-- A computed capture counts as the value that it holds. -/
def normalize : Operand → Operand
  | .captured (.value v) => .borrowed v
  | o => o

def toValue : Operand → Value
  | .captured c => c.toValue
  | .borrowed v => v
  | .owned v => v

def item {α : Type} (items : List α) (index : Int64) : Except Fault α :=
  if 0 ≤ index.toInt then
    match items[index.toInt.toNat]? with
    | some x => .ok x
    | none => .error (.indexOutOfRange index items.length)
  else .error (.indexOutOfRange index items.length)

def index (o : Operand) (position : Value) : Except Fault Operand :=
  match position with
  | .int n =>
    match o.normalize with
    | .captured (.list items) => (item items n).map .captured
    | .borrowed (.list items) => (item items n).map .borrowed
    | .owned (.list items) => (item items n).map .owned
    | other => .error (.typeMismatch "list" other.typeName)
  | other => .error (.typeMismatch "integer" other.typeName)

/-- The field of a record operand; it is taken out of a record that was computed. -/
def field (o : Operand) (name : String) : Except Fault Operand :=
  match o.normalize with
  | .captured (.record fields) =>
    match Record.get? fields name with
    | some c => .ok (.captured c)
    | none => .error (.missingField name)
  | .borrowed (.record fields) =>
    match Record.get? fields name with
    | some v => .ok (.borrowed v)
    | none => .error (.missingField name)
  | .owned (.record fields) =>
    match Record.take? fields name with
    | some (v, _) => .ok (.owned v)
    | none => .error (.missingField name)
  | other => .error (.typeMismatch "record" other.typeName)

def valueLength (v : Value) : Except Fault Nat :=
  match v with
  | .list items => .ok items.length
  | .str s => .ok s.toList.length
  | other => .error (.typeMismatch "list or string" other.typeName)

def length (o : Operand) : Except Fault Nat :=
  match o.normalize with
  | .captured (.list items) => .ok items.length
  | .captured (.text s) => .ok s.toList.length
  | .borrowed v => valueLength v
  | .owned v => valueLength v
  | other => .error (.typeMismatch "list or string" other.typeName)

end Operand

inductive Builtin where
  | len | clone | trim | str | num | int
deriving DecidableEq, Repr

namespace Builtin

def name : Builtin → String
  | .len => "len"
  | .clone => "clone"
  | .trim => "trim"
  | .str => "str"
  | .num => "num"
  | .int => "int"

def all : List Builtin := [.len, .clone, .trim, .str, .num, .int]

def ofName? (name : String) : Option Builtin := all.find? (·.name = name)

end Builtin

def toText (v : Value) : Except Fault Value :=
  match v with
  | .str s => .ok (.str s)
  | .null | .bool _ | .int _ => .ok (.str v.display)
  | .float x => .ok (.str (Number.plainLayout.text x))
  | .list _ | .record _ => .error (.conversion v.display "string")

/-- A value as a float; a string is read without the blanks at its ends. -/
def toNumber (v : Value) : Except Fault Value :=
  match v with
  | .float x => .ok (.float x)
  | .int n => .ok (.float (Number.toFloat n))
  | .str s =>
    match Number.readFloat? (Text.trim s.toList) with
    | some x => .ok (.float x)
    | none => .error (.conversion v.display "float")
  | _ => .error (.conversion v.display "float")

/-- A value as an integer: a float must be one, a string is read without the blanks at its
ends. -/
def toInteger (v : Value) : Except Fault Value :=
  match v with
  | .int n => .ok (.int n)
  | .float x =>
    match Number.ofFloat? x with
    | some n => .ok (.int n)
    | none => .error (.conversion v.display "integer")
  | .str s =>
    match Number.readInteger? (Text.trim s.toList) with
    | some n => .ok (.int n)
    | none => .error (.conversion v.display "integer")
  | _ => .error (.conversion v.display "integer")

def trimmed (v : Value) : Except Fault Value :=
  match v with
  | .str s => .ok (.str (String.ofList (Text.trim s.toList)))
  | other => .error (.typeMismatch "string" other.typeName)

def counted (n : Int) : Except Fault Value :=
  match Number.integer? n with
  | some n => .ok (.int n)
  | none => .error .overflow

def lengthOf (o : Operand) : Except Fault Value := do
  let n ← o.length
  counted n

def Builtin.apply (b : Builtin) (o : Operand) : Except Fault Value :=
  match b with
  | .len => lengthOf o
  | .clone => .ok o.toValue
  | .trim => trimmed o.toValue
  | .str => toText o.toValue
  | .num => toNumber o.toValue
  | .int => toInteger o.toValue

end TextGrammar.Action
