import TextGrammar.Operator
import TextGrammar.Value

/-! # Expressions of a compiled grammar

Names are resolved: a capture is a slot of one of the sequences being matched, counted from the
innermost one outwards, and a local is a slot in the table of its action. The names themselves
serve messages and the display. -/

namespace TextGrammar

mutual

/-- Expressions. Builtin functions are found by name when they are called. -/
inductive Expr where
  | literal (v : Value)
  | captured (name : String) (depth slot : Nat)
  | fetch (name : String) (slot : Nat)
  | index (base position : Expr)
  | field (base : Expr) (name : String)
  | call (callee : String) (arguments : List Expr)
  | binary (op : Operator) (lhs rhs : Expr)
  | list (items : List Expr)
  | record (fields : List (String × Expr))
  | block (body : Block)

/-- Statements, and the expression that gives the value of the block. -/
inductive Block where
  | mk (stmts : List Stmt) (result : Option Expr)

/-- Statements. The bounds of a loop are evaluated once. -/
inductive Stmt where
  | bind (name : String) (slot : Nat) (value : Expr)
  | assign (name : String) (slot : Nat) (mode : AssignMode) (value : Expr)
  | loop (name : String) (slot : Nat) (start stop : Expr) (body : Block)
  | branch (condition : Expr) (yes : Block) (no : Option Block)
  | leave

end

instance : Inhabited Expr := ⟨.literal .null⟩

end TextGrammar
