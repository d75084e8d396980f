import TextGrammar.Operator
import TextGrammar.Span

/-! # Syntax trees of grammar sources

The names in a tree are not resolved yet. Every node carries the span of its tokens, parentheses
around it included. -/

namespace TextGrammar.Source

/-- A word of the source with its place. For an override name the place is that of the whole
string literal. -/
structure Name where
  text : String
  span : Span
deriving DecidableEq, Repr

mutual

inductive Expr where
  | int (span : Span) (n : Int64)
  | float (span : Span) (x : Float)
  | str (span : Span) (s : String)
  | bool (span : Span) (b : Bool)
  | null (span : Span)
  | name (span : Span) (text : String)
  | index (span : Span) (base position : Expr)
  | field (span : Span) (base : Expr) (name : Name)
  | call (span : Span) (callee : Name) (arguments : List Expr)
  | binary (span : Span) (op : Operator) (lhs rhs : Expr)
  | list (span : Span) (items : List Expr)
  | record (span : Span) (fields : List (Name × Expr))
  | block (span : Span) (body : Block)

/-- Statements, and the expression that gives the value of the block. -/
inductive Block where
  | mk (stmts : List Stmt) (result : Option Expr)

inductive Stmt where
  | bind (span : Span) (name : Name) (mutable : Bool) (value : Expr)
  | assign (span : Span) (name : Name) (mode : AssignMode) (value : Expr)
  | loop (span : Span) (name : Name) (start stop : Expr) (body : Block)
  | branch (span : Span) (condition : Expr) (yes : Block) (no : Option Block)
  | leave (span : Span)

end

namespace Expr

def span : Expr → Span
  | int s _ | float s _ | str s _ | bool s _ | null s | name s _ | index s _ _ | field s _ _
  | call s _ _ | binary s _ _ _ | list s _ | record s _ | block s _ => s

/-- The same expression at another place, as if it stood in parentheses. -/
def withSpan (s : Span) : Expr → Expr
  | int _ n => int s n
  | float _ x => float s x
  | str _ t => str s t
  | bool _ b => bool s b
  | null _ => null s
  | name _ t => name s t
  | index _ e i => index s e i
  | field _ e n => field s e n
  | call _ f es => call s f es
  | binary _ op l r => binary s op l r
  | list _ es => list s es
  | record _ fs => record s fs
  | block _ b => block s b

end Expr

def Stmt.span : Stmt → Span
  | bind s _ _ _ | assign s _ _ _ | loop s _ _ _ _ | branch s _ _ _ | leave s => s

/-- Patterns. A name is a leaf type or a rule, and `rename` gives a rule reference an override
name. -/
inductive Pattern where
  | name (span : Span) (text : String)
  | literal (span : Span) (text : String)
  | sequence (span : Span) (fields : List (Option Name × Pattern)) (action : Option Expr)
  | repetition (span : Span) (body : Pattern)
  | choice (span : Span) (alternatives : List Pattern)
  | negation (span : Span) (body : Pattern)
  | rename (span : Span) (body : Pattern) (newName : Name)

abbrev Field := Option Name × Pattern

namespace Pattern

def span : Pattern → Span
  | name s _ | literal s _ | sequence s _ _ | repetition s _ | choice s _ | negation s _
  | rename s _ _ => s

def withSpan (s : Span) : Pattern → Pattern
  | name _ t => name s t
  | literal _ t => literal s t
  | sequence _ fs a => sequence s fs a
  | repetition _ p => repetition s p
  | choice _ ps => choice s ps
  | negation _ p => negation s p
  | rename _ p n => rename s p n

/-- The name that a pattern refers to, seen through repetitions and override names. -/
def callee? : Pattern → Option String
  | name _ t => some t
  | repetition _ p | rename _ p _ => p.callee?
  | _ => none

/-- The override name of a pattern, seen through repetitions. -/
def rename? : Pattern → Option Name
  | rename _ _ n => some n
  | repetition _ p => p.rename?
  | _ => none

end Pattern

structure Rule where
  name : Name
  body : Pattern

/-- A grammar source: its rules, every separator, the patterns after the first separator that
are no rules, and the brace that closes it. -/
structure File where
  rules : List Rule
  separators : List Span
  starts : List Pattern
  close : Span

end TextGrammar.Source
