import Mathlib.Data.List.Forall2
import TextGrammar.Grammar.Display
import TextGrammar.Number.Reading
import TextGrammar.Proofs.Display.Words
import TextGrammar.Source.Tree

/-! # Source trees of a compiled grammar

The display of a grammar writes every part of it as a source tree with the same names. Spans are
left open, and all variables are declared as mutable. A part is legible if its names are
identifiers, its constants have the text of a token, and no block without content stands for a
value, since empty braces are a record. -/

namespace TextGrammar

namespace Source

mutual

/-- A source expression writes an expression of a compiled grammar. -/
inductive Writes : Expr → TextGrammar.Expr → Prop
  | int {span : Span} {n : Int64} : Writes (.int span n) (.literal (.int n))
  | float {span : Span} {x : Float} : Writes (.float span x) (.literal (.float x))
  | str {span : Span} {s : String} : Writes (.str span s) (.literal (.str s))
  | bool {span : Span} {b : Bool} : Writes (.bool span b) (.literal (.bool b))
  | null {span : Span} : Writes (.null span) (.literal .null)
  | captured {span : Span} {name : String} {depth slot : Nat} :
    Writes (.name span name) (.captured name depth slot)
  | fetch {span : Span} {name : String} {slot : Nat} : Writes (.name span name) (.fetch name slot)
  | index {span : Span} {s t : Expr} {e f : TextGrammar.Expr} (hbase : Writes s e)
    (hposition : Writes t f) : Writes (.index span s t) (.index e f)
  | field {span : Span} {s : Expr} {e : TextGrammar.Expr} {name : Name} (hbase : Writes s e) :
    Writes (.field span s name) (.field e name.text)
  | call {span : Span} {callee : Name} {ss : List Expr} {es : List TextGrammar.Expr}
    (harguments : WritesAll ss es) : Writes (.call span callee ss) (.call callee.text es)
  | binary {span : Span} {op : Operator} {s t : Expr} {e f : TextGrammar.Expr} (hlhs : Writes s e)
    (hrhs : Writes t f) : Writes (.binary span op s t) (.binary op e f)
  | list {span : Span} {ss : List Expr} {es : List TextGrammar.Expr} (hitems : WritesAll ss es) :
    Writes (.list span ss) (.list es)
  | record {span : Span} {ss : List (Name × Expr)} {es : List (String × TextGrammar.Expr)}
    (hfields : WritesRecord ss es) : Writes (.record span ss) (.record es)
  | block {span : Span} {b : Block} {c : TextGrammar.Block} (hbody : WritesBlock b c) :
    Writes (.block span b) (.block c)

inductive WritesAll : List Expr → List TextGrammar.Expr → Prop
  | nil : WritesAll [] []
  | cons {s : Expr} {e : TextGrammar.Expr} {ss : List Expr} {es : List TextGrammar.Expr}
    (hhead : Writes s e) (htail : WritesAll ss es) : WritesAll (s :: ss) (e :: es)

inductive WritesRecord : List (Name × Expr) → List (String × TextGrammar.Expr) → Prop
  | nil : WritesRecord [] []
  | cons {name : Name} {s : Expr} {e : TextGrammar.Expr} {ss : List (Name × Expr)}
    {es : List (String × TextGrammar.Expr)} (hhead : Writes s e) (htail : WritesRecord ss es) :
    WritesRecord ((name, s) :: ss) ((name.text, e) :: es)

inductive WritesBlock : Block → TextGrammar.Block → Prop
  | mk {ss : List Stmt} {ts : List TextGrammar.Stmt} {r : Option Expr}
    {q : Option TextGrammar.Expr} (hstmts : WritesStmts ss ts) (hresult : WritesResult r q) :
    WritesBlock (.mk ss r) (.mk ts q)

inductive WritesResult : Option Expr → Option TextGrammar.Expr → Prop
  | none : WritesResult none none
  | some {s : Expr} {e : TextGrammar.Expr} (hvalue : Writes s e) : WritesResult (some s) (some e)

/-- The other branch of a source statement writes that of a statement. -/
inductive WritesOtherwise : Option Block → Option TextGrammar.Block → Prop
  | none : WritesOtherwise none none
  | some {b : Block} {c : TextGrammar.Block} (hbody : WritesBlock b c) :
    WritesOtherwise (some b) (some c)

inductive WritesStmts : List Stmt → List TextGrammar.Stmt → Prop
  | nil : WritesStmts [] []
  | cons {s : Stmt} {t : TextGrammar.Stmt} {ss : List Stmt} {ts : List TextGrammar.Stmt}
    (hhead : WritesStmt s t) (htail : WritesStmts ss ts) : WritesStmts (s :: ss) (t :: ts)

inductive WritesStmt : Stmt → TextGrammar.Stmt → Prop
  | bind {span : Span} {name : Name} {slot : Nat} {s : Expr} {e : TextGrammar.Expr}
    (hvalue : Writes s e) : WritesStmt (.bind span name true s) (.bind name.text slot e)
  | assign {span : Span} {name : Name} {slot : Nat} {mode : AssignMode} {s : Expr}
    {e : TextGrammar.Expr} (hvalue : Writes s e) :
    WritesStmt (.assign span name mode s) (.assign name.text slot mode e)
  | loop {span : Span} {name : Name} {slot : Nat} {s t : Expr} {e f : TextGrammar.Expr} {b : Block}
    {c : TextGrammar.Block} (hstart : Writes s e) (hstop : Writes t f) (hbody : WritesBlock b c) :
    WritesStmt (.loop span name s t b) (.loop name.text slot e f c)
  | branch {span : Span} {s : Expr} {e : TextGrammar.Expr} {b : Block} {c : TextGrammar.Block}
    {no : Option Block} {no' : Option TextGrammar.Block} (hcondition : Writes s e)
    (hyes : WritesBlock b c) (hno : WritesOtherwise no no') :
    WritesStmt (.branch span s b no) (.branch e c no')
  | leave {span : Span} : WritesStmt (.leave span) .leave

end

/-- Parentheses around an expression do not change what it writes. -/
theorem Writes.withSpan {s : Expr} {e : TextGrammar.Expr} (h : Writes s e) (span : Span) :
    Writes (s.withSpan span) e := by
  cases h <;> constructor <;> assumption

theorem writesAll_of_forall₂ {ss : List Expr} {es : List TextGrammar.Expr}
    (h : List.Forall₂ (fun e s => Writes s e) es ss) : WritesAll ss es := by
  induction h with
  | nil => exact .nil
  | cons hhead _ ih => exact .cons hhead ih

theorem writesRecord_of_forall₂ {ss : List (Name × Expr)} {es : List (String × TextGrammar.Expr)}
    (h : List.Forall₂ (fun e s => s.1.text = e.1 ∧ Writes s.2 e.2) es ss) :
    WritesRecord ss es := by
  induction h with
  | nil => exact .nil
  | @cons e s _ _ hhead _ ih =>
    rcases e with ⟨name, e⟩
    obtain ⟨rfl, hvalue⟩ := hhead
    exact .cons hvalue ih

end Source

/-- A text is digits, a point and digits, which a minus may precede. -/
structure Number.IsDecimal (text : List Char) (negative : Bool) (whole fraction : List Char) :
    Prop where
  whole_ne : whole ≠ []
  whole_digits : whole.all Char.isDigit = true
  fraction_ne : fraction ≠ []
  fraction_digits : fraction.all Char.isDigit = true
  text_eq : text = (if negative = true then ['-'] else []) ++ (whole ++ '.' :: fraction)

/-- The text of a float is a number with a point, which reads back to the float. -/
def Number.IsLegible (x : Float) : Prop :=
  readFloat? (valueLayout.text x).toList = some x ∧
    ∃ negative whole fraction, IsDecimal (valueLayout.text x).toList negative whole fraction

/-- No character of a text is written as its number. -/
def Text.IsLegible (text : String) : Prop :=
  ∀ c ∈ text.toList, quotedChar c ≠ numbered c

instance (text : String) : Decidable (Text.IsLegible text) :=
  List.decidableBAll (fun c => Text.quotedChar c ≠ Text.numbered c) text.toList

def Value.IsLegible : Value → Prop
  | .null | .bool _ | .int _ => True
  | .float x => Number.IsLegible x
  | .str s => Text.IsLegible s
  | .list _ | .record _ => False

mutual

def Expr.IsLegible : Expr → Prop
  | .literal v => v.IsLegible
  | .captured name _ _ | .fetch name _ => Token.isName name.toList = true
  | .index base position => base.IsLegible ∧ position.IsLegible
  | .field base name => base.IsLegible ∧ Token.isName name.toList = true
  | .call callee arguments =>
    Token.isName callee.toList = true ∧ Expr.AreLegible arguments
  | .binary _ lhs rhs => lhs.IsLegible ∧ rhs.IsLegible
  | .list items => Expr.AreLegible items
  | .record fields => Expr.FieldsLegible fields
  | .block body => body ≠ .mk [] none ∧ body.IsLegible

def Expr.AreLegible : List Expr → Prop
  | [] => True
  | e :: es => e.IsLegible ∧ Expr.AreLegible es

def Expr.FieldsLegible : List (String × Expr) → Prop
  | [] => True
  | (name, e) :: rest =>
    Token.isName name.toList = true ∧ e.IsLegible ∧ Expr.FieldsLegible rest

def Block.IsLegible : Block → Prop
  | .mk stmts result => Stmt.AreLegible stmts ∧ Expr.ResultLegible result

def Expr.ResultLegible : Option Expr → Prop
  | none => True
  | some e => e.IsLegible

def Block.OtherwiseLegible : Option Block → Prop
  | none => True
  | some b => b.IsLegible

def Stmt.AreLegible : List Stmt → Prop
  | [] => True
  | s :: rest => s.IsLegible ∧ Stmt.AreLegible rest

def Stmt.IsLegible : Stmt → Prop
  | .bind name _ value => Token.isName name.toList = true ∧ value.IsLegible
  | .assign name _ _ value => Token.isName name.toList = true ∧ value.IsLegible
  | .loop name _ start stop body =>
    Token.isName name.toList = true ∧ start.IsLegible ∧ stop.IsLegible ∧ body.IsLegible
  | .branch condition yes no => condition.IsLegible ∧ yes.IsLegible ∧ Block.OtherwiseLegible no
  | .leave => True

end

end TextGrammar
