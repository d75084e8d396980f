import TextGrammar.Capture
import TextGrammar.Grammar
import TextGrammar.Number.Reading

/-! # Reading leaves

A leaf reads from the front of the rest of the input. It gives its capture and the number of
characters that it takes, or fails and takes nothing. -/

namespace TextGrammar.Leaf

def withoutReturn (cs : List Char) : List Char :=
  if cs.getLast? = some '\r' then cs.dropLast else cs

/-- Reads the rest of a line, which must not be empty together with its end. The line feed that
ends the line is taken, but not captured, and neither is a carriage return before the end. -/
def readLine? (rest : List Char) : Option (Capture × Nat) :=
  if rest.isEmpty then none
  else
    let line := rest.takeWhile (· != '\n')
    let taken := if line.length < rest.length then line.length + 1 else line.length
    some (.text (String.ofList (withoutReturn line)), taken)

def isNumberBlank (c : Char) : Bool := c == ' ' || c == '\t'

def signOf : List Char → List Char
  | '+' :: _ => ['+']
  | '-' :: _ => ['-']
  | _ => []

def fractionOf : List Char → List Char
  | '.' :: cs =>
    let digits := cs.takeWhile Char.isDigit
    if digits.isEmpty then [] else '.' :: digits
  | _ => []

def exponentOf : List Char → List Char
  | c :: cs =>
    if c == 'e' || c == 'E' then
      let sign := signOf cs
      let digits := (cs.drop sign.length).takeWhile Char.isDigit
      if digits.isEmpty then [] else c :: (sign ++ digits)
    else []
  | [] => []

def integerLexeme? (cs : List Char) : Option (List Char) :=
  let sign := signOf cs
  let digits := (cs.drop sign.length).takeWhile Char.isDigit
  if digits.isEmpty then none else some (sign ++ digits)

/-- The longest float at the front of a text: a sign, digits before or after a point, and an
exponent. -/
def floatLexeme? (cs : List Char) : Option (List Char) :=
  let sign := signOf cs
  let cs := cs.drop sign.length
  let whole := cs.takeWhile Char.isDigit
  let cs := cs.drop whole.length
  let fraction := fractionOf cs
  let cs := cs.drop fraction.length
  if whole.isEmpty && fraction.isEmpty then none
  else some (sign ++ whole ++ fraction ++ exponentOf cs)

def lineEndLength : List Char → Nat
  | '\r' :: '\n' :: _ => 2
  | '\n' :: _ => 1
  | _ => 0

def readNumber? (lexeme? : List Char → Option (List Char)) (capture? : List Char → Option Capture)
    (rest : List Char) : Option (Capture × Nat) := do
  let before := (rest.takeWhile isNumberBlank).length
  let lexeme ← lexeme? (rest.drop before)
  let capture ← capture? lexeme
  let rest := rest.drop (before + lexeme.length)
  let after := (rest.takeWhile isNumberBlank).length
  return (capture, before + lexeme.length + after + lineEndLength (rest.drop after))

/-- Reads a leaf. An integer out of range is none. -/
def read? : Leaf → List Char → Option (Capture × Nat)
  | .line => readLine?
  | .float => readNumber? floatLexeme? fun cs => (Number.readFloat? cs).map .float
  | .integer => readNumber? integerLexeme? fun cs => (Number.readInteger? cs).map .int

end TextGrammar.Leaf
