import TextGrammar.Number.Reading
import TextGrammar.Source.Cursor
import TextGrammar.Source.Tree
import TextGrammar.Token.Lexer

/-! # Parsing grammar sources

A source is `meta` and a list of rules, separators and start patterns in braces. In the
grammar below, words in quotes are tokens.

    rule     := name ":=" choice ";"
    choice   := unary ("|" unary)*
    unary    := "repeat" unary | "!" unary | primary (":" string)?
    primary  := name | string | "(" choice ")" | "[" (field ","?)* "]" ("=>" expr)?
    field    := (name ":" | name "<-")? choice

`name: "text"` gives an override name to a rule reference; a label in front of a literal is
written `name <- "text"`.

Each construct is described over the parsers of the constructs one level of nesting deeper, and
the levels are tied together at the end, by recursion on the number of levels left. -/

namespace TextGrammar.Source
namespace Parser

def identifier : Parser Name := do
  let t ← expect .identifier
  return ⟨String.ofList t.text, t.span⟩

def string : Parser Name := do
  let t ← expect .string
  match Literal.decode t.text with
  | .ok text => return ⟨String.ofList text, t.span⟩
  | .error (offset, fault) => throw ⟨.point (t.span.start + offset), .literal fault⟩

/-- The number that a token writes: a float if it has a point, else an integer. -/
def number (t : Token) (negative : Bool) (span : Span) : Parser Expr :=
  let text := if negative then '-' :: t.text else t.text
  if t.text.contains '.' then
    match Number.readFloat? text with
    | some x => return .float span x
    | none => throw ⟨t.span, .integerOutOfRange⟩
  else
    match Number.readInteger? text with
    | some n => return .int span n
    | none => throw ⟨t.span, .integerOutOfRange⟩

def binary (op : Operator) (lhs rhs : Expr) : Expr := .binary (lhs.span.join rhs.span) op lhs rhs

/-- The next operator and its right operand, if there is an operator. It is one more level of
nesting. -/
def link? (operator? : Option Token.Kind → Option Operator) (operand : Parser Expr) :
    Parser (Option (Operator × Expr)) := do
  match operator? (← peek) with
  | some op =>
    advance
    descend
    return some (op, ← operand)
  | none => return none

/-- Operands with left associative operators between them. -/
def chain (operator? : Option Token.Kind → Option Operator) (operand : Parser Expr) :
    Parser Expr := keepDepth do
  let first ← operand
  let rest ← many (link? operator? operand)
  return rest.foldl (fun lhs (op, rhs) => binary op lhs rhs) first

def product? : Option Token.Kind → Option Operator
  | some (.symbol .star) => some .mul
  | _ => none

def sum? : Option Token.Kind → Option Operator
  | some (.symbol .plus) => some .add
  | some (.symbol .minus) => some .sub
  | _ => none

def comparison? : Option Token.Kind → Option Operator
  | some (.symbol .equal) => some .equal
  | some (.symbol .notEqual) => some .notEqual
  | some (.symbol .less) => some .less
  | some (.symbol .lessEqual) => some .lessEqual
  | some (.symbol .greater) => some .greater
  | some (.symbol .greaterEqual) => some .greaterEqual
  | _ => none

/-- What may follow an expression: an index in brackets, or the name of a field. -/
inductive Suffix where
  | index (position : Expr) (stop : Span)
  | field (name : Name) (stop : Span)

def Suffix.apply (base : Expr) : Suffix → Expr
  | .index position stop => .index (base.span.join stop) base position
  | .field name stop => .field (base.span.join stop) base name

/-- The next suffix of an expression, if there is one. It is one more level of nesting. -/
def suffix? (expr : Parser Expr) : Parser (Option Suffix) := do
  if ← at? (.symbol .leftBracket) then
    descend
    advance
    let position ← expr
    let _ ← expect (.symbol .rightBracket)
    return some (.index position (← last))
  else if ← at? (.symbol .dot) then
    descend
    advance
    let name ← identifier
    return some (.field name (← last))
  else return none

/-- An atom and its suffixes. -/
def postfixed (atom expr : Parser Expr) : Parser Expr := keepDepth do
  let first ← atom
  let suffixes ← many (suffix? expr)
  return suffixes.foldl Suffix.apply first

/-- A comparison of two sums, or a sum alone; comparisons are not chained. -/
def comparison (atom expr : Parser Expr) : Parser Expr := do
  let sum := chain sum? (chain product? (postfixed atom expr))
  let lhs ← sum
  match comparison? (← peek) with
  | some op =>
    advance
    return binary op lhs (← sum)
  | none => return lhs

def recordField (expr : Parser Expr) : Parser (Name × Expr) := do
  let name ← identifier
  let _ ← expect (.symbol .colon)
  return (name, ← expr)

/-- Whether the brace at the cursor starts a record: `\x7b` and `\x7d`, or a name and a colon,
follow one another. Any other brace starts a block. -/
def startsRecord : Parser Bool := do
  let first ← peekAt 1
  let second ← peekAt 2
  return first == some (.symbol .rightBrace) ||
    (first == some .identifier && second == some (.symbol .colon))

/-- A literal, a name, a call, or an expression in brackets of some kind. -/
def atom (expr : Parser Expr) (block : Parser Block) : Parser Expr := do
  let start ← here
  match ← peek with
  | some .number =>
    let t ← expect .number
    number t false (start.join t.span)
  | some .string =>
    let s ← string
    return .str (← spanFrom start) s.text
  | some (.keyword .trueValue) =>
    advance
    return .bool (← spanFrom start) true
  | some (.keyword .falseValue) =>
    advance
    return .bool (← spanFrom start) false
  | some (.keyword .nullValue) =>
    advance
    return .null (← spanFrom start)
  | some .identifier =>
    let name ← identifier
    if ← accept (.symbol .leftParen) then
      let arguments ← listUntil (.symbol .rightParen) expr
      return .call (← spanFrom start) name arguments
    else return .name (← spanFrom start) name.text
  | some (.symbol .leftParen) =>
    advance
    let inner ← expr
    let _ ← expect (.symbol .rightParen)
    return inner.withSpan (← spanFrom start)
  | some (.symbol .leftBracket) =>
    advance
    let items ← listUntil (.symbol .rightBracket) expr
    return .list (← spanFrom start) items
  | some (.symbol .leftBrace) =>
    if ← startsRecord then
      advance
      let fields ← listUntil (.symbol .rightBrace) (recordField expr)
      return .record (← spanFrom start) fields
    else
      let body ← block
      return .block (← spanFrom start) body
  | some (.symbol .minus) =>
    if (← peekAt 1) == some .number then
      advance
      let t ← expect .number
      number t true (start.join t.span)
    else unexpected .expression
  | _ => unexpected .expression

/-- The end of a statement, which a closing brace makes superfluous. -/
def semicolon : Parser Unit := do
  if ← accept (.symbol .semicolon) then return
  else if ← at? (.symbol .rightBrace) then return
  else unexpected (.token (.symbol .semicolon))

/-- A condition, its block, and where the word `if` before them stood. -/
structure Arm where
  start : Span
  condition : Expr
  body : Block

def arm (expr : Parser Expr) (block : Parser Block) : Parser Arm := do
  let start ← here
  advance
  let condition ← expr
  let body ← block
  return ⟨start, condition, body⟩

/-- Another `if` after the word `else`, unless there is none. -/
def nextArm (expr : Parser Expr) (block : Parser Block) : Parser (Option Arm) := do
  if (← at? (.keyword .otherwise)) && (← peekAt 1) == some (.keyword .ifThen) then
    advance
    return some (← arm expr block)
  else return none

/-- Puts the arms of a branching statement into one another, the last one innermost. Every arm
may have a semicolon of its own. -/
def nestArms (no : Option Block) : List Arm → Parser (Option Block)
  | [] => return no
  | a :: rest => do
    let no ← nestArms no rest
    let _ ← accept (.symbol .semicolon)
    let span ← spanFrom a.start
    return some (.mk [.branch span a.condition a.body no] none)

/-- A branching statement: `if`, any number of `else if`, and `else`. An `else if` is a branching
statement as the only one of the `else` block. -/
def branch (expr : Parser Expr) (block : Parser Block) : Parser Stmt := do
  let first ← arm expr block
  let arms ← many (nextArm expr block)
  let no ←
    if ← accept (.keyword .otherwise) then some <$> block
    else pure none
  let no ← nestArms no arms
  let _ ← accept (.symbol .semicolon)
  return .branch (← spanFrom first.start) first.condition first.body no

def loop (expr : Parser Expr) (block : Parser Block) : Parser Stmt := do
  let first ← here
  advance
  let name ← identifier
  let _ ← expect (.keyword .inRange)
  let start ← expr
  let _ ← expect (.symbol .dotDot)
  let stop ← expr
  let body ← block
  let _ ← accept (.symbol .semicolon)
  return .loop (← spanFrom first) name start stop body

def declaration (expr : Parser Expr) : Parser Stmt := do
  let start ← here
  advance
  let mutable ← accept (.keyword .mutable)
  let name ← identifier
  let _ ← expect (.symbol .assign)
  let value ← expr
  semicolon
  return .bind (← spanFrom start) name mutable value

def assignment (expr : Parser Expr) : Parser Stmt := do
  let start ← here
  let name ← identifier
  let mode ←
    if ← accept (.symbol .plusAssign) then pure AssignMode.append
    else do
      let _ ← expect (.symbol .assign)
      pure AssignMode.set
  let value ← expr
  semicolon
  return .assign (← spanFrom start) name mode value

/-- The next statement of a block, if one stands there and not the value of the block. -/
def stmt? (expr : Parser Expr) (block : Parser Block) : Parser (Option Stmt) := do
  match ← peek with
  | some (.keyword .letBinding) => some <$> declaration expr
  | some (.keyword .forLoop) => some <$> loop expr block
  | some (.keyword .ifThen) => some <$> branch expr block
  | some (.keyword .breakLoop) =>
    let start ← here
    advance
    semicolon
    return some (.leave (← spanFrom start))
  | some .identifier =>
    match ← peekAt 1 with
    | some (.symbol .assign) | some (.symbol .plusAssign) => some <$> assignment expr
    | _ => return none
  | _ => return none

/-- Statements in braces, and an expression for the value of the block as the last thing. -/
def blockBody (expr : Parser Expr) (block : Parser Block) : Parser Block := do
  let _ ← expect (.symbol .leftBrace)
  let stmts ← many (stmt? expr block)
  let result ←
    if ← at? (.symbol .rightBrace) then pure none
    else some <$> expr
  let _ ← expect (.symbol .rightBrace)
  return .mk stmts result

mutual

/-- An expression with a number of levels of nesting left. -/
def expr : Nat → Parser Expr
  | 0 => fail .nestingTooDeep
  | n + 1 => comparison (nested (atom (expr n) (block n))) (expr n)

def block : Nat → Parser Block
  | 0 => fail .nestingTooDeep
  | n + 1 => nested (blockBody (expr n) (block n))

end

/-- The next alternative of a choice, if there is one. -/
def alternative? (unary : Parser Pattern) : Parser (Option Pattern) := do
  if ← accept (.symbol .pipe) then some <$> unary
  else return none

def choice (unary : Parser Pattern) : Parser Pattern := do
  let first ← unary
  let rest ← many (alternative? unary)
  if rest.isEmpty then return first
  else return .choice (← spanFrom first.span) (first :: rest)

/-- Whether a label stands at the cursor: a name before `<-`, or before a colon that no string
follows. -/
def startsLabel : Parser Bool := do
  if ← at? .identifier then
    match ← peekAt 1 with
    | some (.symbol .colon) => return (← peekAt 2) != some .string
    | some (.symbol .leftArrow) => return true
    | _ => return false
  else return false

def field (unary : Parser Pattern) : Parser Field := do
  if ← startsLabel then
    let label ← identifier
    advance
    return (some label, ← choice unary)
  else return (none, ← choice unary)

def primary (unary : Parser Pattern) (expr : Parser Expr) : Parser Pattern := do
  let start ← here
  match ← peek with
  | some .identifier =>
    let name ← identifier
    return .name (← spanFrom start) name.text
  | some .string =>
    let s ← string
    return .literal (← spanFrom start) s.text
  | some (.symbol .leftParen) =>
    advance
    let inner ← choice unary
    let _ ← expect (.symbol .rightParen)
    return inner.withSpan (← spanFrom start)
  | some (.symbol .leftBracket) =>
    advance
    let fields ← listUntil (.symbol .rightBracket) (field unary)
    let action ←
      if ← accept (.symbol .fatArrow) then some <$> expr
      else pure none
    return .sequence (← spanFrom start) fields action
  | _ => unexpected .pattern

/-- A repetition, a negation, or a primary pattern that may get an override name. -/
def unaryBody (unary : Parser Pattern) (expr : Parser Expr) : Parser Pattern := do
  let start ← here
  if ← accept (.keyword .repetition) then
    let body ← unary
    return .repetition (← spanFrom start) body
  else if ← accept (.symbol .bang) then
    let body ← unary
    return .negation (← spanFrom start) body
  else
    let body ← primary unary expr
    if (← at? (.symbol .colon)) && (← peekAt 1) == some .string then
      advance
      let name ← string
      return .rename (← spanFrom start) body name
    else return body

def unary : Nat → Parser Pattern
  | 0 => fail .nestingTooDeep
  | n + 1 => nested (unaryBody (unary n) (expr n))

inductive Item where
  | separator (span : Span)
  | rule (r : Rule)
  | start (p : Pattern)

namespace Item

def rule? : Item → Option Rule
  | .rule r => some r
  | _ => none

def separator? : Item → Option Span
  | .separator s => some s
  | _ => none

def start? : Item → Option Pattern
  | .start p => some p
  | _ => none

end Item

/-- Whether a rule definition stands at the cursor. -/
def startsRule : Parser Bool := do
  return (← at? .identifier) && (← peekAt 1) == some (.symbol .define)

def rule : Parser Rule := do
  let name ← identifier
  let _ ← expect (.symbol .define)
  let body ← choice (unary nestingLimit)
  let _ ← expect (.symbol .semicolon)
  return ⟨name, body⟩

/-- The next rule in front of the first separator, if there is one. -/
def nextRule : Parser (Option Rule) := do
  if ← startsRule then some <$> rule
  else return none

/-- A start pattern, which a semicolon or a comma may end. -/
def startPattern : Parser Pattern := do
  let p ← choice (unary nestingLimit)
  if ← accept (.symbol .semicolon) then return p
  else
    let _ ← accept (.symbol .comma)
    return p

/-- The next entry from the first separator on, unless the closing brace stands there. -/
def item? : Parser (Option Item) := do
  if ← at? (.symbol .rightBrace) then return none
  else if ← at? .dashes then
    let span ← here
    advance
    return some (.separator span)
  else if ← startsRule then return some (.rule (← rule))
  else return some (.start (← startPattern))

/-- A whole source. Only rules may stand before the first separator. -/
def file : Parser File := do
  let _ ← expect (.keyword .grammar)
  let _ ← expect (.symbol .leftBrace)
  let rules ← many nextRule
  let items ←
    if ← at? .dashes then many item?
    else if ← at? (.symbol .rightBrace) then pure []
    else unexpected .ruleDefinition
  let close ← expect (.symbol .rightBrace)
  if (← peek).isSome then unexpected .endOfInput
  else
    return {
      rules := rules ++ items.filterMap Item.rule?
      separators := items.filterMap Item.separator?
      starts := items.filterMap Item.start?
      close := close.span }

end Parser

def parseWith {α : Type} (p : Parser α) (source : List Char) : Except Fault α :=
  (p.run (.start (Token.lex source) (Text.byteLength source))).map Prod.fst

def parseFile (source : List Char) : Except Fault File := parseWith Parser.file source

/-- Parses one expression at the front of a source; what follows it is left alone. -/
def parseExpr (source : List Char) : Except Fault Expr :=
  parseWith (Parser.expr nestingLimit) source

end TextGrammar.Source
