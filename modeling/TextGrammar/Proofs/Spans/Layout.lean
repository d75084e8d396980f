import TextGrammar.Proofs.Syntax.Taking

/-! # How constructs are laid out

A construct of a source is a pattern, an expression, a statement or a word that names something. It
is laid out as pieces in a row: tokens of its own, and the constructs right below it, which are its
children. -/

namespace TextGrammar.Source
open Token (Kind)

/-- What has a place in a source: patterns, expressions and statements, the words that name
something, and the string literals of override names. -/
inductive Construct where
  | pattern (p : Pattern)
  | expr (e : Expr)
  | stmt (s : Stmt)
  | name (n : Name)
  | newName (n : Name)

namespace Construct

def span : Construct → Span
  | pattern p => p.span
  | expr e => e.span
  | stmt s => s.span
  | name n | newName n => n.span

def ofBlock : Block → List Construct
  | .mk stmts result => stmts.map stmt ++ result.toList.map expr

def ofField (f : Field) : List Construct := f.1.toList.map name ++ [pattern f.2]

def ofEntry (f : Name × Expr) : List Construct := [name f.1, expr f.2]

/-- The constructs right below a construct, in the order of the source. -/
def children : Construct → List Construct
  | pattern (.sequence _ fields action) => fields.flatMap ofField ++ action.toList.map expr
  | pattern (.repetition _ body) | pattern (.negation _ body) => [pattern body]
  | pattern (.choice _ alternatives) => alternatives.map pattern
  | pattern (.rename _ body n) => [pattern body, newName n]
  | expr (.index _ base position) => [expr base, expr position]
  | expr (.field _ base n) => [expr base, name n]
  | expr (.call _ callee arguments) => name callee :: arguments.map expr
  | expr (.binary _ _ lhs rhs) => [expr lhs, expr rhs]
  | expr (.list _ items) => items.map expr
  | expr (.record _ fields) => fields.flatMap ofEntry
  | expr (.block _ body) => ofBlock body
  | stmt (.bind _ n _ value) | stmt (.assign _ n _ value) => [name n, expr value]
  | stmt (.loop _ n start stop body) => [name n, expr start, expr stop] ++ ofBlock body
  | stmt (.branch _ condition yes no) =>
    expr condition :: (ofBlock yes ++ no.toList.flatMap ofBlock)
  | _ => []

end Construct

/-- A piece of a layout: a token with a mark, or all tokens of a construct. -/
inductive Piece where
  | sign (m : Mark)
  | part (x : Construct)

namespace Piece

abbrev symbol (s : Symbol) : Piece := sign (.symbol s)

abbrev keyword (k : Keyword) : Piece := sign (.keyword k)

/-- A token that may be left out. -/
def signIf (present : Bool) (m : Mark) : List Piece := if present then [sign m] else []

def part? : Piece → Option Construct
  | part x => some x
  | sign _ => none

end Piece

open Piece

/-- Items are laid out with commas between them. Another comma may follow the last one. -/
inductive LaidList {α : Type} (R : α → List Piece → Prop) : List α → List Piece → Prop
  | nil : LaidList R [] []
  | last {x ps} (h : R x ps) : LaidList R [x] ps
  | more {x xs ps qs} (h : R x ps) (hrest : LaidList R xs qs) :
    LaidList R (x :: xs) (ps ++ symbol .comma :: qs)

def exprPieces (e : Expr) : List Piece := [part (.expr e)]

def entryPieces (f : Name × Expr) : List Piece :=
  [part (.name f.1), symbol .colon, part (.expr f.2)]

def alternativePieces (p : Pattern) : List Piece := [symbol .pipe, part (.pattern p)]

inductive LaidField : Field → List Piece → Prop
  | free {p} : LaidField (none, p) [part (.pattern p)]
  | colon {label p} :
    LaidField (some label, p) [part (.name label), symbol .colon, part (.pattern p)]
  | arrow {label p} :
    LaidField (some label, p) [part (.name label), symbol .leftArrow, part (.pattern p)]

def blockPieces (b : Block) : List Piece :=
  symbol .leftBrace :: ((Construct.ofBlock b).map part ++ [symbol .rightBrace])

/-- The pieces from the word `else` on. Behind it stands a block, or a branching statement as the
only one of a block without braces. -/
inductive LaidElse : Option Block → List Piece → Prop
  | absent : LaidElse none []
  | block {b} : LaidElse (some b) (keyword .otherwise :: blockPieces b)
  | arm {span condition yes no} :
    LaidElse (some (.mk [.branch span condition yes no] none))
      [keyword .otherwise, part (.stmt (.branch span condition yes no))]

/-- A construct is laid out as pieces. Parentheses around a pattern or an expression are pieces of
it, and so is the semicolon behind a statement. -/
inductive Layout : Construct → List Piece → Prop
  | name {n} : Layout (.name n) [sign (.name n.text)]
  | newName {n} : Layout (.newName n) [sign (.string n.text)]
  | patternName {span text} : Layout (.pattern (.name span text)) [sign (.name text)]
  | literal {span text} : Layout (.pattern (.literal span text)) [sign (.string text)]
  | sequence {span fields ps} (h : LaidList LaidField fields ps) :
    Layout (.pattern (.sequence span fields none))
      (symbol .leftBracket :: (ps ++ [symbol .rightBracket]))
  | action {span fields e ps} (h : LaidList LaidField fields ps) :
    Layout (.pattern (.sequence span fields (some e)))
      (symbol .leftBracket ::
        (ps ++ [symbol .rightBracket, symbol .fatArrow, part (.expr e)]))
  | repetition {span p} :
    Layout (.pattern (.repetition span p)) [keyword .repetition, part (.pattern p)]
  | negation {span p} : Layout (.pattern (.negation span p)) [symbol .bang, part (.pattern p)]
  | choice {span p q ps} :
    Layout (.pattern (.choice span (p :: q :: ps)))
      (part (.pattern p) :: (q :: ps).flatMap alternativePieces)
  | rename {span p n} :
    Layout (.pattern (.rename span p n))
      [part (.pattern p), symbol .colon, part (.newName n)]
  | group {span p ps} (h : Layout (.pattern p) ps) :
    Layout (.pattern (p.withSpan span)) (symbol .leftParen :: (ps ++ [symbol .rightParen]))
  | number {negative digits e} (h : Numeral negative digits e) :
    Layout (.expr e) (signIf negative (.symbol .minus) ++ [sign (.number digits)])
  | str {span s} : Layout (.expr (.str span s)) [sign (.string s)]
  | true {span} : Layout (.expr (.bool span true)) [keyword .trueValue]
  | false {span} : Layout (.expr (.bool span false)) [keyword .falseValue]
  | null {span} : Layout (.expr (.null span)) [keyword .nullValue]
  | exprName {span text} : Layout (.expr (.name span text)) [sign (.name text)]
  | index {span base position} :
    Layout (.expr (.index span base position))
      [part (.expr base), symbol .leftBracket, part (.expr position), symbol .rightBracket]
  | field {span base n} :
    Layout (.expr (.field span base n)) [part (.expr base), symbol .dot, part (.name n)]
  | call {span n es ps} (h : LaidList (fun e qs => qs = exprPieces e) es ps) :
    Layout (.expr (.call span n es))
      (part (.name n) :: symbol .leftParen :: (ps ++ [symbol .rightParen]))
  | binary {span op lhs rhs} :
    Layout (.expr (.binary span op lhs rhs))
      [part (.expr lhs), sign (.sign op.kind), part (.expr rhs)]
  | list {span es ps} (h : LaidList (fun e qs => qs = exprPieces e) es ps) :
    Layout (.expr (.list span es)) (symbol .leftBracket :: (ps ++ [symbol .rightBracket]))
  | record {span fields ps} (h : LaidList (fun f qs => qs = entryPieces f) fields ps) :
    Layout (.expr (.record span fields)) (symbol .leftBrace :: (ps ++ [symbol .rightBrace]))
  | block {span b} : Layout (.expr (.block span b)) (blockPieces b)
  | parens {span e ps} (h : Layout (.expr e) ps) :
    Layout (.expr (e.withSpan span)) (symbol .leftParen :: (ps ++ [symbol .rightParen]))
  | bind {span n mutable value ended} :
    Layout (.stmt (.bind span n mutable value))
      (keyword .letBinding :: (signIf mutable (.keyword .mutable) ++ (part (.name n) ::
        symbol .assign :: part (.expr value) :: signIf ended (.symbol .semicolon))))
  | assign {span n mode value ended} :
    Layout (.stmt (.assign span n mode value))
      (part (.name n) :: sign (.sign (Parser.assignKind mode)) :: part (.expr value) ::
        signIf ended (.symbol .semicolon))
  | leave {span ended} :
    Layout (.stmt (.leave span)) (keyword .breakLoop :: signIf ended (.symbol .semicolon))
  | loop {span n start stop body ended} :
    Layout (.stmt (.loop span n start stop body))
      (keyword .forLoop :: part (.name n) :: keyword .inRange :: part (.expr start) ::
        symbol .dotDot :: part (.expr stop) ::
          (blockPieces body ++ signIf ended (.symbol .semicolon)))
  | branch {span condition yes no ps ended} (h : LaidElse no ps) :
    Layout (.stmt (.branch span condition yes no))
      (keyword .ifThen :: part (.expr condition) ::
        (blockPieces yes ++ (ps ++ signIf ended (.symbol .semicolon))))

/-- An entry of a source is laid out as pieces. A semicolon or a comma may stand behind a start
pattern. -/
inductive LaidEntry : Parser.Item → List Piece → Prop
  | separator {span} : LaidEntry (.separator span) [sign (.sign .dashes)]
  | rule {r} :
    LaidEntry (.rule r)
      [part (.name r.name), symbol .define, part (.pattern r.body), symbol .semicolon]
  | start {p} : LaidEntry (.start p) [part (.pattern p)]
  | startEnded {p stop} (hstop : stop = Symbol.semicolon ∨ stop = .comma) :
    LaidEntry (.start p) [part (.pattern p), symbol stop]

/-- A source is laid out as its entries in braces: its rules, its start patterns and the separators
between them. -/
inductive LaidFile (file : File) : List Piece → Prop
  | mk {entries : List (Parser.Item × List Piece)} (laid : ∀ x ∈ entries, LaidEntry x.1 x.2)
    (rules : file.rules = entries.filterMap (·.1.rule?))
    (starts : file.starts = entries.filterMap (·.1.start?)) :
    LaidFile file
      (keyword .grammar :: symbol .leftBrace :: (entries.flatMap (·.2) ++ [symbol .rightBrace]))

theorem Layout.ne_nil {x : Construct} {ps : List Piece} (h : Layout x ps) : ps ≠ [] := by
  cases h <;> simp [blockPieces]

def parts (ps : List Piece) : List Construct := ps.filterMap part?

@[simp] theorem parts_nil : parts [] = [] := rfl

@[simp] theorem parts_sign (m : Mark) (ps : List Piece) : parts (sign m :: ps) = parts ps := rfl

@[simp] theorem parts_part (x : Construct) (ps : List Piece) :
    parts (part x :: ps) = x :: parts ps := rfl

@[simp] theorem parts_append (ps qs : List Piece) : parts (ps ++ qs) = parts ps ++ parts qs :=
  List.filterMap_append

@[simp] theorem parts_map (xs : List Construct) : parts (xs.map part) = xs := by
  induction xs with
  | nil => rfl
  | cons x xs ih => rw [List.map_cons, parts_part, ih]

@[simp] theorem parts_signIf (present : Bool) (m : Mark) : parts (signIf present m) = [] := by
  cases present <;> rfl

@[simp] theorem parts_blockPieces (b : Block) : parts (blockPieces b) = Construct.ofBlock b := by
  simp [blockPieces]

theorem mem_parts {x : Construct} {ps : List Piece} : x ∈ parts ps ↔ part x ∈ ps := by
  induction ps with
  | nil => simp
  | cons q ps ih => cases q <;> simp [ih]

theorem LaidList.parts_eq {α : Type} {R : α → List Piece → Prop} {f : α → List Construct}
    (hf : ∀ ⦃x ps⦄, R x ps → parts ps = f x) {xs : List α} {ps : List Piece}
    (h : LaidList R xs ps) : parts ps = xs.flatMap f := by
  induction h with
  | nil => rfl
  | last h => simp [hf h]
  | more h _ ih => simp [hf h, ih]

theorem LaidField.parts_eq {f : Field} {ps : List Piece} (h : LaidField f ps) :
    parts ps = Construct.ofField f := by
  cases h <;> rfl

theorem LaidElse.parts_eq {no : Option Block} {ps : List Piece} (h : LaidElse no ps) :
    parts ps = no.toList.flatMap Construct.ofBlock := by
  cases h <;> simp [Construct.ofBlock]

theorem parts_exprs {es : List Expr} {ps : List Piece}
    (h : LaidList (fun e qs => qs = exprPieces e) es ps) : parts ps = es.map .expr := by
  rw [h.parts_eq (f := fun e => [.expr e]) fun _ _ h => by rw [h]; rfl]
  exact List.map_eq_flatMap.symm

theorem parts_alternatives (ps : List Pattern) :
    parts (ps.flatMap alternativePieces) = ps.map .pattern := by
  induction ps with
  | nil => rfl
  | cons p ps ih => simp [alternativePieces, ih]

theorem children_numeral {negative : Bool} {digits : List Char} {e : Expr}
    (h : Numeral negative digits e) : (Construct.expr e).children = [] := by
  cases h <;> rfl

theorem children_withSpan (span : Span) (e : Expr) :
    (Construct.expr (e.withSpan span)).children = (Construct.expr e).children := by
  cases e <;> rfl

theorem children_patternWithSpan (span : Span) (p : Pattern) :
    (Construct.pattern (p.withSpan span)).children = (Construct.pattern p).children := by
  cases p <;> rfl

/-- The parts of a construct are its children in the order of the source. -/
theorem Layout.parts_eq {x : Construct} {ps : List Piece} (h : Layout x ps) :
    parts ps = x.children := by
  induction h with
  | sequence h | action h =>
    have hfields := h.parts_eq (f := Construct.ofField) fun _ _ => LaidField.parts_eq
    simp [hfields, Construct.children]
  | choice =>
    rw [parts_part, parts_alternatives]
    rfl
  | number h => simp [children_numeral h]
  | call h | list h => simp [parts_exprs h, Construct.children]
  | record h =>
    have hentries := h.parts_eq (f := Construct.ofEntry) fun _ _ h => by rw [h]; rfl
    simp [hentries, Construct.children]
  | group _ ih => simp [ih, children_patternWithSpan]
  | parens _ ih => simp [ih, children_withSpan]
  | branch h => simp [h.parts_eq, Construct.children]
  | _ => simp [Construct.children]

end TextGrammar.Source
