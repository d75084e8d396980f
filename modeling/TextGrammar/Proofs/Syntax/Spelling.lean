import TextGrammar.Proofs.Display.Statements

/-! # How source trees are spelled

A source tree is spelled by tokens in many ways: parentheses may stand around any part, a comma
behind the last item of a list, and a semicolon behind a block. What a token stands for is its
mark: a name, the text of a string literal, the digits of a number, or nothing but its kind. The
spellings of an expression are told by the phrases that the grammar of expressions has, each with
the number of levels that the nesting limit leaves for it. -/

namespace TextGrammar

inductive Operator.Tier where
  | comparison
  | sum
  | product

def Operator.tier : Operator → Operator.Tier
  | .mul => .product
  | .add | .sub => .sum
  | .equal | .notEqual | .less | .lessEqual | .greater | .greaterEqual => .comparison

namespace Source
open Token (Kind)

/-- What a token stands for, without its place and its spelling. -/
inductive Mark where
  | name (text : String)
  | string (text : String)
  | number (digits : List Char)
  | sign (kind : Kind)
deriving DecidableEq

namespace Mark

abbrev symbol (s : Symbol) : Mark := .sign (.symbol s)

abbrev keyword (k : Keyword) : Mark := .sign (.keyword k)

def kind : Mark → Kind
  | .name _ => .identifier
  | .string _ => .string
  | .number _ => .number
  | .sign k => k

theorem eq_symbol {m : Mark} {s : Symbol} (h : m.kind = .symbol s) : m = .symbol s := by
  cases m <;> cases h
  rfl

theorem eq_keyword {m : Mark} {k : Keyword} (h : m.kind = .keyword k) : m = .keyword k := by
  cases m <;> cases h
  rfl

end Mark

def frontKind (ws : List Mark) : Option Kind := ws.head?.map Mark.kind

@[simp] theorem frontKind_nil : frontKind [] = none := rfl

@[simp] theorem frontKind_cons (m : Mark) (ws : List Mark) : frontKind (m :: ws) = some m.kind :=
  rfl

/-- Items are spelled one after the other with commas between them. Another comma may follow the
last one. -/
inductive Listed : List (List Mark) → List Mark → Prop
  | nil : Listed [] []
  | last {item : List Mark} : Listed [item] item
  | more {item rest : List Mark} {items : List (List Mark)} (h : Listed items rest) :
    Listed (item :: items) (item ++ .symbol .comma :: rest)

/-- A number is read from digits and the sign in front of them, if there is one. -/
inductive Numeral (negative : Bool) (digits : List Char) : Expr → Prop
  | int {span : Span} {n : Int64} (hpoint : digits.contains '.' = false)
    (hread : Number.readInteger? (if negative then '-' :: digits else digits) = some n) :
    Numeral negative digits (.int span n)
  | float {span : Span} {x : Float} (hpoint : digits.contains '.' = true)
    (hread : Number.readFloat? (if negative then '-' :: digits else digits) = some x) :
    Numeral negative digits (.float span x)

/-- The end of a statement without a block: a semicolon, or nothing in front of a brace. -/
inductive Terminator : (last : Bool) → List Mark → Prop
  | semicolon {last : Bool} : Terminator last [.symbol .semicolon]
  | none : Terminator true []

/-- What the grammar of expressions spells: an expression, a sum or a product with a number of
operators, an operand with a number of suffixes, an atom, a field of a record, a block, statements
in front of a closing brace or not, a statement, and the other branch of a statement with a number
of arms. -/
inductive Phrase where
  | expr (e : Expr)
  | sum (operators : Nat) (e : Expr)
  | product (operators : Nat) (e : Expr)
  | operand (suffixes : Nat) (e : Expr)
  | atom (e : Expr)
  | entry (f : Name × Expr)
  | block (b : Block)
  | stmts (last : Bool) (ss : List Stmt)
  | stmt (last : Bool) (s : Stmt)
  | otherwise (arms : Nat) (no : Option Block)

/-- A phrase is spelled by some marks, with a number of levels of nesting left. An atom and a block
take a level, and so does every operator and suffix for what stands to its right. -/
inductive Spells : Nat → Phrase → List Mark → Prop
  -- A comparison is the loosest operator, and is not chained.
  | sumAlone {n k e ws} (h : Spells n (.sum k e) ws) : Spells n (.expr e) ws
  | comparison {n k k' span op lhs rhs ws ws'} (hlhs : Spells n (.sum k lhs) ws)
    (hop : op.tier = .comparison) (hrhs : Spells n (.sum k' rhs) ws') :
    Spells n (.expr (.binary span op lhs rhs)) (ws ++ .sign op.kind :: ws')
  -- Sums and products are left associative, and products are the tighter ones.
  | productAlone {n k e ws} (h : Spells n (.product k e) ws) : Spells n (.sum 0 e) ws
  | sum {n m k k' span op lhs rhs ws ws'} (hlhs : Spells n (.sum k lhs) ws)
    (hop : op.tier = .sum) (hrhs : Spells m (.product k' rhs) ws')
    (hlevel : m + (k + 1) = n) :
    Spells n (.sum (k + 1) (.binary span op lhs rhs)) (ws ++ .sign op.kind :: ws')
  | operandAlone {n k e ws} (h : Spells n (.operand k e) ws) : Spells n (.product 0 e) ws
  | product {n m k k' span op lhs rhs ws ws'} (hlhs : Spells n (.product k lhs) ws)
    (hop : op.tier = .product) (hrhs : Spells m (.operand k' rhs) ws')
    (hlevel : m + (k + 1) = n) :
    Spells n (.product (k + 1) (.binary span op lhs rhs)) (ws ++ .sign op.kind :: ws')
  -- Suffixes are tighter than operators.
  | atomAlone {n e ws} (h : Spells n (.atom e) ws) : Spells n (.operand 0 e) ws
  | index {n m k span base position ws ws'} (hbase : Spells n (.operand k base) ws)
    (hposition : Spells m (.expr position) ws') (hlevel : m + (k + 1) = n) :
    Spells n (.operand (k + 1) (.index span base position))
      (ws ++ .symbol .leftBracket :: (ws' ++ [.symbol .rightBracket]))
  | field {n m k span base name ws} (hbase : Spells n (.operand k base) ws)
    (hlevel : m + (k + 1) = n) :
    Spells n (.operand (k + 1) (.field span base name))
      (ws ++ [.symbol .dot, .name name.text])
  -- A minus in front of an atom belongs to a number.
  | number {n negative digits e} (h : Numeral negative digits e) :
    Spells (n + 1) (.atom e)
      ((if negative then [.symbol .minus] else []) ++ [.number digits])
  | str {n span s} : Spells (n + 1) (.atom (.str span s)) [.string s]
  | true {n span} : Spells (n + 1) (.atom (.bool span true)) [.keyword .trueValue]
  | false {n span} : Spells (n + 1) (.atom (.bool span false)) [.keyword .falseValue]
  | null {n span} : Spells (n + 1) (.atom (.null span)) [.keyword .nullValue]
  | name {n span text} : Spells (n + 1) (.atom (.name span text)) [.name text]
  | call {n span callee es items ws} (hlength : es.length = items.length)
    (hitems : ∀ x ∈ es.zip items, Spells n (.expr x.1) x.2) (hws : Listed items ws) :
    Spells (n + 1) (.atom (.call span callee es))
      (.name callee.text :: .symbol .leftParen :: (ws ++ [.symbol .rightParen]))
  | parens {n span e ws} (h : Spells n (.expr e) ws) :
    Spells (n + 1) (.atom (e.withSpan span))
      (.symbol .leftParen :: (ws ++ [.symbol .rightParen]))
  | list {n span es items ws} (hlength : es.length = items.length)
    (hitems : ∀ x ∈ es.zip items, Spells n (.expr x.1) x.2) (hws : Listed items ws) :
    Spells (n + 1) (.atom (.list span es))
      (.symbol .leftBracket :: (ws ++ [.symbol .rightBracket]))
  | record {n span fields items ws} (hlength : fields.length = items.length)
    (hitems : ∀ x ∈ fields.zip items, Spells n (.entry x.1) x.2) (hws : Listed items ws) :
    Spells (n + 1) (.atom (.record span fields))
      (.symbol .leftBrace :: (ws ++ [.symbol .rightBrace]))
  | entry {n name e ws} (h : Spells n (.expr e) ws) :
    Spells n (.entry (name, e)) (.name name.text :: .symbol .colon :: ws)
  -- Empty braces are a record.
  | blockValue {n span b ws} (h : Spells n (.block b) ws) (hne : b ≠ .mk [] none) :
    Spells (n + 1) (.atom (.block span b)) ws
  -- The value of a block is the last thing in it.
  | body {n ss ws} (hstmts : Spells n (.stmts true ss) ws) :
    Spells (n + 1) (.block (.mk ss none))
      (.symbol .leftBrace :: (ws ++ [.symbol .rightBrace]))
  | bodyValue {n ss e ws ws'} (hstmts : Spells n (.stmts false ss) ws)
    (hvalue : Spells n (.expr e) ws') :
    Spells (n + 1) (.block (.mk ss (some e)))
      (.symbol .leftBrace :: (ws ++ (ws' ++ [.symbol .rightBrace])))
  | noStmt {n last} : Spells n (.stmts last []) []
  | stmt {n last s ss ws ws'} (hs : Spells n (.stmt (last && ss.isEmpty) s) ws)
    (hss : Spells n (.stmts last ss) ws') : Spells n (.stmts last (s :: ss)) (ws ++ ws')
  | bind {n last span name mutable value ws stop} (hvalue : Spells n (.expr value) ws)
    (hstop : Terminator last stop) :
    Spells n (.stmt last (.bind span name mutable value))
      (.keyword .letBinding :: ((if mutable then [.keyword .mutable] else []) ++
        .name name.text :: .symbol .assign :: (ws ++ stop)))
  | assign {n last span name mode value ws stop} (hvalue : Spells n (.expr value) ws)
    (hstop : Terminator last stop) :
    Spells n (.stmt last (.assign span name mode value))
      (.name name.text :: .sign (Parser.assignKind mode) :: (ws ++ stop))
  | leave {n last span stop} (hstop : Terminator last stop) :
    Spells n (.stmt last (.leave span)) (.keyword .breakLoop :: stop)
  -- A semicolon may stand behind the block of a loop, and behind each arm of a branch.
  | loop {n last span name start stop body k ws ws' ws''} (hstart : Spells n (.expr start) ws)
    (hstop : Spells n (.expr stop) ws') (hbody : Spells n (.block body) ws'') (hk : k ≤ 1) :
    Spells n (.stmt last (.loop span name start stop body))
      (.keyword .forLoop :: .name name.text :: .keyword .inRange ::
        (ws ++ .symbol .dotDot :: (ws' ++ (ws'' ++ List.replicate k (.symbol .semicolon)))))
  | branch {n last span condition yes arms no k ws ws' ws''}
    (hcondition : Spells n (.expr condition) ws) (hyes : Spells n (.block yes) ws')
    (hno : Spells n (.otherwise arms no) ws'') (hk : k ≤ arms + 1) :
    Spells n (.stmt last (.branch span condition yes no))
      (.keyword .ifThen ::
        (ws ++ (ws' ++ (ws'' ++ List.replicate k (.symbol .semicolon)))))
  | noOtherwise {n} : Spells n (.otherwise 0 none) []
  | otherwise {n b ws} (h : Spells n (.block b) ws) :
    Spells n (.otherwise 0 (some b)) (.keyword .otherwise :: ws)
  -- An `else if` is a branch as the only statement of the other branch, and takes no level.
  | arm {n span condition yes arms no ws ws' ws''} (hcondition : Spells n (.expr condition) ws)
    (hyes : Spells n (.block yes) ws') (hno : Spells n (.otherwise arms no) ws'') :
    Spells n (.otherwise (arms + 1) (some (.mk [.branch span condition yes no] none)))
      (.keyword .otherwise :: .keyword .ifThen :: (ws ++ (ws' ++ ws'')))

/-- What the grammar of patterns spells: a choice or a single pattern, alternatives, a pattern that
is no choice, one without a prefix and a new name, and a field of a sequence. -/
inductive PatternPhrase where
  | choice (p : Pattern)
  | alternatives (ps : List Pattern)
  | unary (p : Pattern)
  | primary (p : Pattern)
  | field (f : Field)

/-- A phrase of a pattern is spelled by some marks, with a number of levels of nesting left. The
flag allows the expression of an action to be the last thing in it. -/
inductive SpellsPattern : Nat → PatternPhrase → Bool → List Mark → Prop
  -- A choice has two alternatives at least.
  | alone {n action p ws} (h : SpellsPattern n (.unary p) action ws) :
    SpellsPattern n (.choice p) action ws
  | choice {n action span p q ps ws}
    (h : SpellsPattern n (.alternatives (p :: q :: ps)) action ws) :
    SpellsPattern n (.choice (.choice span (p :: q :: ps))) action ws
  | lastAlternative {n action p ws} (h : SpellsPattern n (.unary p) action ws) :
    SpellsPattern n (.alternatives [p]) action ws
  | nextAlternative {n action p ps ws ws'} (h : SpellsPattern n (.unary p) true ws)
    (hrest : SpellsPattern n (.alternatives ps) action ws') :
    SpellsPattern n (.alternatives (p :: ps)) action (ws ++ .symbol .pipe :: ws')
  | repetition {n action span p ws} (h : SpellsPattern n (.unary p) action ws) :
    SpellsPattern (n + 1) (.unary (.repetition span p)) action (.keyword .repetition :: ws)
  | negation {n action span p ws} (h : SpellsPattern n (.unary p) action ws) :
    SpellsPattern (n + 1) (.unary (.negation span p)) action (.symbol .bang :: ws)
  | bare {n action p ws} (h : SpellsPattern n (.primary p) action ws) :
    SpellsPattern (n + 1) (.unary p) action ws
  | rename {n action span p newName ws} (h : SpellsPattern n (.primary p) true ws) :
    SpellsPattern (n + 1) (.unary (.rename span p newName)) action
      (ws ++ [.symbol .colon, .string newName.text])
  | name {n action span text} : SpellsPattern n (.primary (.name span text)) action [.name text]
  | literal {n action span text} :
    SpellsPattern n (.primary (.literal span text)) action [.string text]
  | parens {n action span p ws} (h : SpellsPattern n (.choice p) true ws) :
    SpellsPattern n (.primary (p.withSpan span)) action
      (.symbol .leftParen :: (ws ++ [.symbol .rightParen]))
  | sequence {n action span fields items ws} (hlength : fields.length = items.length)
    (hitems : ∀ x ∈ fields.zip items, SpellsPattern n (.field x.1) true x.2)
    (hws : Listed items ws) :
    SpellsPattern n (.primary (.sequence span fields none)) action
      (.symbol .leftBracket :: (ws ++ [.symbol .rightBracket]))
  | action {n span fields e items ws ws'} (hlength : fields.length = items.length)
    (hitems : ∀ x ∈ fields.zip items, SpellsPattern n (.field x.1) true x.2)
    (hws : Listed items ws) (hbody : Spells n (.expr e) ws') :
    SpellsPattern n (.primary (.sequence span fields (some e))) true
      (.symbol .leftBracket :: (ws ++ .symbol .rightBracket :: .symbol .fatArrow :: ws'))
  | free {n action p ws} (h : SpellsPattern n (.choice p) action ws) :
    SpellsPattern n (.field (none, p)) action ws
  -- A colon in front of a string gives a new name, so a label takes the other sign there.
  | arrow {n action label p ws} (h : SpellsPattern n (.choice p) action ws) :
    SpellsPattern n (.field (some label, p)) action
      (.name label.text :: .symbol .leftArrow :: ws)
  | colon {n action label p ws} (h : SpellsPattern n (.choice p) action ws)
    (hws : frontKind ws ≠ some .string) :
    SpellsPattern n (.field (some label, p)) action (.name label.text :: .symbol .colon :: ws)

/-- An entry of a source with its spelling, and whether the expression of an action may be the last
thing in it. -/
structure Entry where
  item : Parser.Item
  marks : List Mark
  action : Bool

namespace Entry

def rule? (x : Entry) : Option Rule := x.item.rule?

def separator? (x : Entry) : Option Span := x.item.separator?

def start? (x : Entry) : Option Pattern := x.item.start?

end Entry

/-- An entry is spelled by its marks. A semicolon or a comma may stand behind a start pattern. -/
inductive SpellsEntry (n : Nat) : Entry → Prop
  | separator {span : Span} : SpellsEntry n ⟨.separator span, [.sign .dashes], false⟩
  | rule {r : Rule} {ws : List Mark} (h : SpellsPattern n (.choice r.body) true ws) :
    SpellsEntry n
      ⟨.rule r, .name r.name.text :: .symbol .define :: (ws ++ [.symbol .semicolon]), false⟩
  | start {p : Pattern} {action : Bool} {ws : List Mark}
    (h : SpellsPattern n (.choice p) action ws) : SpellsEntry n ⟨.start p, ws, action⟩
  | startEnded {p : Pattern} {ws : List Mark} {stop : Symbol}
    (h : SpellsPattern n (.choice p) true ws) (hstop : stop = .semicolon ∨ stop = .comma) :
    SpellsEntry n ⟨.start p, ws ++ [.symbol stop], false⟩

/-- A source is laid out as entries with their spellings: its rules, separators and start patterns
are interleaved, and a separator stands in front of the first start pattern. -/
structure Lays (n : Nat) (file : File) (entries : List Entry) : Prop where
  spelled : ∀ x ∈ entries, SpellsEntry n x
  rules : file.rules = entries.filterMap Entry.rule?
  separators : file.separators = entries.filterMap Entry.separator?
  starts : file.starts = entries.filterMap Entry.start?
  separated : ∀ front x back, entries = front ++ x :: back → x.start?.isSome →
    ∃ y ∈ front, y.separator?.isSome

/-- The expression of an action would go on with a bracket behind it, so no entry that starts with
one follows an entry that may end in an action. -/
def Parted (entries : List Entry) : Prop :=
  entries.IsChain fun x y => x.action = true →
    frontKind y.marks ≠ some (.symbol .leftParen) ∧ frontKind y.marks ≠ some (.symbol .leftBracket)

def sourceMarks (entries : List Entry) : List Mark :=
  .keyword .grammar :: .symbol .leftBrace ::
    (entries.flatMap Entry.marks ++ [.symbol .rightBrace])

end Source

namespace Token
open Source (Mark)

/-- The mark of a token. A string literal that cannot be read stands for nothing but its kind. -/
def mark (t : Token) : Mark :=
  match t.kind with
  | .identifier => .name (String.ofList t.text)
  | .string =>
    match Literal.decode t.text with
    | .ok text => .string (String.ofList text)
    | .error _ => .sign .string
  | .number => .number t.text
  | kind => .sign kind

end Token

end TextGrammar
