import TextGrammar.Span

/-! # Tokens

The tokens of the grammar language. Every kind has a description, which syntax errors show. -/

namespace TextGrammar

/-- The reserved words, none of which is an identifier. -/
inductive Keyword where
  | grammar | repetition | letBinding | mutable | forLoop | inRange
  | ifThen | otherwise | breakLoop | trueValue | falseValue | nullValue
deriving DecidableEq, Repr

namespace Keyword

def text : Keyword → String
  | .grammar => "meta"
  | .repetition => "repeat"
  | .letBinding => "let"
  | .mutable => "mut"
  | .forLoop => "for"
  | .inRange => "in"
  | .ifThen => "if"
  | .otherwise => "else"
  | .breakLoop => "break"
  | .trueValue => "true"
  | .falseValue => "false"
  | .nullValue => "null"

def all : List Keyword :=
  [.grammar, .repetition, .letBinding, .mutable, .forLoop, .inRange,
    .ifThen, .otherwise, .breakLoop, .trueValue, .falseValue, .nullValue]

def ofText? (word : List Char) : Option Keyword := all.find? (·.text.toList = word)

theorem ofText?_text (k : Keyword) : ofText? k.text.toList = some k := by
  cases k <;> decide +kernel

end Keyword

inductive Symbol where
  | leftParen | rightParen | leftBrace | rightBrace | leftBracket | rightBracket
  | comma | colon | semicolon | dot | dotDot | pipe | bang
  | define | fatArrow | leftArrow
  | plus | plusAssign | minus | star
  | assign | equal | notEqual | less | lessEqual | greater | greaterEqual
deriving DecidableEq, Repr

namespace Symbol

def text : Symbol → String
  | .leftParen => "("
  | .rightParen => ")"
  | .leftBrace => "\x7b"
  | .rightBrace => "\x7d"
  | .leftBracket => "["
  | .rightBracket => "]"
  | .comma => ","
  | .colon => ":"
  | .semicolon => ";"
  | .dot => "."
  | .dotDot => ".."
  | .pipe => "|"
  | .bang => "!"
  | .define => ":="
  | .fatArrow => "=>"
  | .leftArrow => "<-"
  | .plus => "+"
  | .plusAssign => "+="
  | .minus => "-"
  | .star => "*"
  | .assign => "="
  | .equal => "=="
  | .notEqual => "!="
  | .less => "<"
  | .lessEqual => "<="
  | .greater => ">"
  | .greaterEqual => ">="

end Symbol

namespace Token

/-- The kinds of token. `dashes` is three or more `-`, which separate the rules from the start
designation, and `invalid` is text that belongs to no other kind. -/
inductive Kind where
  | identifier | string | number | dashes | invalid
  | symbol (s : Symbol)
  | keyword (k : Keyword)
deriving DecidableEq, Repr

def Kind.describe : Kind → String
  | .identifier => "identifier"
  | .string => "string literal"
  | .number => "number"
  | .dashes => "`---`"
  | .invalid => "invalid character"
  | .symbol s => "`" ++ s.text ++ "`"
  | .keyword k => "`" ++ k.text ++ "`"

end Token

/-- A token with its place in the source and the characters that stand there. -/
structure Token where
  kind : Token.Kind
  span : Span
  text : List Char
deriving DecidableEq, Repr

end TextGrammar
