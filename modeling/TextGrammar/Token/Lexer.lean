import TextGrammar.Text.Offset
import TextGrammar.Token

/-! # Splitting a source into tokens

At each place the longest lexeme that starts there is taken: a token, or a run of blanks or a
line comment, which give no token. A lexeme is described by its kind and by the number of
characters after its first one, so the lexemes of a source concatenate to the source.

The offsets of tokens are natural numbers. Sources are meant to have at most `2 ^ 32 - 1` bytes, for
which offsets of 32 bits are enough; a longer one is not refused here but split in the same way.
Only lines and columns are numbers of 32 bits, so that what is stated of them bounds the source. -/

namespace TextGrammar.Token

/-- The blanks of the grammar language are the ASCII ones, without the vertical tab. -/
def isBlank (c : Char) : Bool :=
  c == ' ' || c == '\t' || c == '\n' || c == '\r' || c == '\x0c'

/-- An identifier starts with an ASCII letter or an underscore. -/
def startsWord (c : Char) : Bool := c.isAlpha || c == '_'

/-- After its first character an identifier may hold digits as well. -/
def continuesWord (c : Char) : Bool := c.isAlphanum || c == '_'

/-- The number of characters at the front of a text that satisfy `p`. -/
def runLength (p : Char → Bool) (cs : List Char) : Nat := (cs.takeWhile p).length

/-- What follows an opening quote: whether the string is closed, and how many characters it takes
up to the closing quote, or up to the line feed or the end that cuts it off. A backslash takes
the character after it along, whatever that is. -/
def stringBody : List Char → Bool × Nat
  | [] => (false, 0)
  | '"' :: _ => (true, 1)
  | '\n' :: _ => (false, 1)
  | '\\' :: _ :: cs => let (closed, n) := stringBody cs; (closed, n + 2)
  | _ :: cs => let (closed, n) := stringBody cs; (closed, n + 1)

/-- The characters of a number after its first digit: more digits, and a fraction if a digit
follows the point. -/
def numberRest (cs : List Char) : Nat :=
  let whole := runLength Char.isDigit cs
  match cs.drop whole with
  | '.' :: d :: fraction => if d.isDigit then whole + 2 + runLength Char.isDigit fraction else whole
  | _ => whole

/-- The symbol at a place and the number of its characters after the first; of two symbols that
fit, the longer one. -/
def symbolAt? : Char → List Char → Option (Symbol × Nat)
  | ':', '=' :: _ => some (.define, 1)
  | ':', _ => some (.colon, 0)
  | '=', '>' :: _ => some (.fatArrow, 1)
  | '=', '=' :: _ => some (.equal, 1)
  | '=', _ => some (.assign, 0)
  | '<', '-' :: _ => some (.leftArrow, 1)
  | '<', '=' :: _ => some (.lessEqual, 1)
  | '<', _ => some (.less, 0)
  | '>', '=' :: _ => some (.greaterEqual, 1)
  | '>', _ => some (.greater, 0)
  | '!', '=' :: _ => some (.notEqual, 1)
  | '!', _ => some (.bang, 0)
  | '+', '=' :: _ => some (.plusAssign, 1)
  | '+', _ => some (.plus, 0)
  | '.', '.' :: _ => some (.dotDot, 1)
  | '.', _ => some (.dot, 0)
  | '-', _ => some (.minus, 0)
  | '*', _ => some (.star, 0)
  | ',', _ => some (.comma, 0)
  | ';', _ => some (.semicolon, 0)
  | '|', _ => some (.pipe, 0)
  | '(', _ => some (.leftParen, 0)
  | ')', _ => some (.rightParen, 0)
  | '\x7b', _ => some (.leftBrace, 0)
  | '\x7d', _ => some (.rightBrace, 0)
  | '[', _ => some (.leftBracket, 0)
  | ']', _ => some (.rightBracket, 0)
  | _, _ => none

/-- Three or more dashes, of which two follow the first. -/
def dashesAt? : Char → List Char → Option Nat
  | '-', '-' :: '-' :: cs => some (2 + runLength (· == '-') cs)
  | _, _ => none

/-- The lexeme at a place: its kind, none for blanks and comments, and the number of its
characters after the first. -/
def lexeme (c : Char) (cs : List Char) : Option Kind × Nat :=
  if isBlank c then (none, runLength isBlank cs)
  else if c == '/' && cs.head? == some '/' then (none, runLength (· != '\n') cs)
  else if c == '"' then
    let (closed, n) := stringBody cs
    (some (if closed then .string else .invalid), n)
  else if c.isDigit then (some .number, numberRest cs)
  else if startsWord c then
    let n := runLength continuesWord cs
    match Keyword.ofText? (c :: cs.take n) with
    | some k => (some (.keyword k), n)
    | none => (some .identifier, n)
  else match dashesAt? c cs with
    | some n => (some .dashes, n)
    | none =>
      match symbolAt? c cs with
      | some (s, n) => (some (.symbol s), n)
      | none => (some .invalid, 0)

/-- The tokens of a text that starts at byte offset `start`; every step takes at least one
character, so `rounds` need not exceed their number. -/
def tokensFrom : (rounds start : Nat) → List Char → List Token
  | _, _, [] => []
  | 0, _, _ :: _ => []
  | rounds + 1, start, c :: cs =>
    let (kind?, n) := lexeme c cs
    let text := c :: cs.take n
    let stop := start + Text.byteLength text
    let rest := tokensFrom rounds stop (cs.drop n)
    match kind? with
    | none => rest
    | some kind => ⟨kind, ⟨start, stop⟩, text⟩ :: rest

/-- The tokens of a grammar source in order. -/
def lex (source : List Char) : List Token := tokensFrom source.length 0 source

end TextGrammar.Token
