import TextGrammar.Number.Integer

/-! # Reading numbers

Integers are an optional sign and digits, floats also have an optional fraction and exponent, and
are rounded to the nearest float. Neither allows blanks. -/

namespace TextGrammar.Number

def digitValue (c : Char) : Nat := c.toNat - '0'.toNat

def digitsValue (digits : List Char) : Nat := digits.foldl (fun n c => 10 * n + digitValue c) 0

def splitSign : List Char → Bool × List Char
  | '-' :: cs => (true, cs)
  | '+' :: cs => (false, cs)
  | cs => (false, cs)

def readInteger? (cs : List Char) : Option Int64 :=
  let (negative, digits) := splitSign cs
  if digits ≠ [] ∧ digits.all Char.isDigit then
    integer? (if negative then -(digitsValue digits : Int) else digitsValue digits)
  else none

/-- The float nearest to `digits · 10 ^ exponent`. Far outside of the range of floats nothing is
computed: with `n` digits the number is at least `10 ^ (n + exponent - 1)` and below
`10 ^ (n + exponent)`. -/
def nearestFloat (negative : Bool) (digits : List Char) (exponent : Int) : Float :=
  let digits := digits.dropWhile (· == '0')
  let size := digits.length + exponent
  let magnitude : Float :=
    if digits.isEmpty || size < -400 then 0.0
    else if 400 < size then 1.0 / 0.0
    else Float.ofScientific (digitsValue digits) (exponent < 0) exponent.natAbs
  if negative then -magnitude else magnitude

def readExponent? : List Char → Option Int
  | [] => some 0
  | c :: cs =>
    if c == 'e' || c == 'E' then
      let (negative, digits) := splitSign cs
      if digits ≠ [] ∧ digits.all Char.isDigit then
        some (if negative then -(digitsValue digits : Int) else digitsValue digits)
      else none
    else none

/-- Reads the digits of a float: a whole part and a fraction, of which one may be empty. -/
def readDecimal? (negative : Bool) (cs : List Char) : Option Float :=
  let whole := cs.takeWhile Char.isDigit
  let rest := cs.dropWhile Char.isDigit
  let (fraction, rest) :=
    match rest with
    | '.' :: rest => (rest.takeWhile Char.isDigit, rest.dropWhile Char.isDigit)
    | rest => ([], rest)
  if whole.isEmpty && fraction.isEmpty then none
  else (readExponent? rest).map fun e =>
    nearestFloat negative (whole ++ fraction) (e - fraction.length)

/-- Reads a float: digits, or one of the words for what is no number in either case. -/
def readFloat? (cs : List Char) : Option Float :=
  let (negative, cs) := splitSign cs
  let word := String.ofList (cs.map Char.toLower)
  if word == "nan" then some (0.0 / 0.0)
  else if word == "inf" || word == "infinity" then
    some (if negative then -(1.0 / 0.0) else 1.0 / 0.0)
  else readDecimal? negative cs

inductive CountFault where
  | empty
  | invalidDigit
  | tooLarge
deriving DecidableEq, Repr

def CountFault.message : CountFault → String
  | .empty => "cannot parse integer from empty string"
  | .invalidDigit => "invalid digit found in string"
  | .tooLarge => "number too large to fit in target type"

/-- Adds digits to a number of 32 bits; the first digit that is none, or that makes it too large,
decides. -/
def readDigits (n : Nat) : List Char → Except CountFault Nat
  | [] => .ok n
  | c :: cs =>
    if !c.isDigit then .error .invalidDigit
    else if 10 * n + digitValue c < 2 ^ 32 then readDigits (10 * n + digitValue c) cs
    else .error .tooLarge

/-- Reads a natural number of 32 bits: digits, which a plus may precede. -/
def readCount : List Char → Except CountFault Nat
  | [] => .error .empty
  | ['+'] => .error .invalidDigit
  | '+' :: cs => readDigits 0 cs
  | cs => readDigits 0 cs

end TextGrammar.Number
