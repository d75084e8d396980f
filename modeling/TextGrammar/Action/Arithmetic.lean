import TextGrammar.Action.Fault
import TextGrammar.Number.Integer
import TextGrammar.Value

/-! # Arithmetic and comparison of values

Integers are added, subtracted and multiplied exactly or not at all; with a float among the
operands both are taken as floats. Sums of strings and of lists join them. Numbers are compared
as floats, strings by their characters, and any two values for equality. -/

namespace TextGrammar.Action

def asFloat? : Value → Option Float
  | .int n => some (Number.toFloat n)
  | .float x => some x
  | _ => none

/-- The fault for operands that an operator does not take. -/
def mismatch (op : Operator) (lhs rhs : Value) : Fault :=
  .operandMismatch op lhs.typeName rhs.typeName

/-- Whether two values are equal: numbers as floats, all others by structure. -/
def equal (lhs rhs : Value) : Bool :=
  match asFloat? lhs, asFloat? rhs with
  | some a, some b => a == b
  | _, _ => lhs.same rhs

/-- The order of two floats; what is no number has none. -/
def floatOrder? (a b : Float) : Option Ordering :=
  if a < b then some .lt
  else if b < a then some .gt
  else if a == b then some .eq
  else none

def stringOrder (a b : String) : Ordering :=
  if a < b then .lt else if a = b then .eq else .gt

def order? (lhs rhs : Value) : Option Ordering :=
  match lhs, rhs with
  | .str a, .str b => some (stringOrder a b)
  | _, _ =>
    match asFloat? lhs, asFloat? rhs with
    | some a, some b => floatOrder? a b
    | _, _ => none

def satisfies (op : Operator) (o : Ordering) : Bool :=
  match op with
  | .less => o.isLT
  | .lessEqual => o.isLE
  | .greater => o.isGT
  | .greaterEqual => o.isGE
  | _ => false

def exact (op : Int → Int → Int) (a b : Int64) : Except Fault Value :=
  match Number.integer? (op a.toInt b.toInt) with
  | some n => .ok (.int n)
  | none => .error .overflow

/-- An operation on numbers: exact on two integers, else on floats. -/
def arithmetic (op : Operator) (exactly : Int → Int → Int) (roughly : Float → Float → Float)
    (lhs rhs : Value) : Except Fault Value :=
  match lhs, rhs with
  | .int a, .int b => exact exactly a b
  | _, _ =>
    match asFloat? lhs, asFloat? rhs with
    | some a, some b => .ok (.float (roughly a b))
    | _, _ => .error (mismatch op lhs rhs)

def add (lhs rhs : Value) : Except Fault Value :=
  match lhs, rhs with
  | .str a, .str b => .ok (.str (a ++ b))
  | .list a, .list b => .ok (.list (a ++ b))
  | _, _ => arithmetic .add (· + ·) (· + ·) lhs rhs

def compare (op : Operator) (lhs rhs : Value) : Except Fault Value :=
  match order? lhs rhs with
  | some o => .ok (.bool (satisfies op o))
  | none => .error (mismatch op lhs rhs)

/-- The value of a binary expression. -/
def binary (op : Operator) (lhs rhs : Value) : Except Fault Value :=
  match op with
  | .add => add lhs rhs
  | .sub => arithmetic .sub (· - ·) (· - ·) lhs rhs
  | .mul => arithmetic .mul (· * ·) (· * ·) lhs rhs
  | .equal => .ok (.bool (equal lhs rhs))
  | .notEqual => .ok (.bool !(equal lhs rhs))
  | op => compare op lhs rhs

/-- The new value of a variable that a value is appended to. -/
def append (old new : Value) : Except Fault Value :=
  match old, new with
  | .str a, .str b => .ok (.str (a ++ b))
  | .list a, .list b => .ok (.list (a ++ b))
  | _, _ => binary .add old new

end TextGrammar.Action
