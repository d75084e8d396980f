import TextGrammar.Number.Shortest

/-! # Texts of floats

A layout says how the shortest decimal of a float is written: which magnitudes positionally, the
others with an exponent, and the words for what is no number. -/

namespace TextGrammar.Number

/-- The decisions of a text format for floats. A number is written positionally if the exponent
of its first digit satisfies `positional`. -/
structure Layout where
  positional : Int → Bool
  pointZero : Bool
  exponentPlus : Bool
  tie : Tie
  nan : String
  infinite : String

/-- Digits with a point after the first `places` of them, filled up with zeros. -/
def withPoint (layout : Layout) (digits : List Char) (places : Int) : List Char :=
  if places ≤ 0 then '0' :: '.' :: (List.replicate (-places).toNat '0' ++ digits)
  else if digits.length ≤ places.toNat then
    digits ++ List.replicate (places.toNat - digits.length) '0' ++
      (if layout.pointZero then ['.', '0'] else [])
  else digits.take places.toNat ++ '.' :: digits.drop places.toNat

/-- Digits with a point after the first one, and the exponent of the first digit. -/
def withExponent (layout : Layout) (digits : List Char) (exponent : Int) : List Char :=
  digits.take 1 ++ (if digits.length ≤ 1 then [] else '.' :: digits.drop 1) ++
    'e' :: ((if layout.exponentPlus && 0 ≤ exponent then ['+'] else []) ++
      (toString exponent).toList)

def Decimal.text (layout : Layout) (d : Decimal) : List Char :=
  let digits := Nat.toDigits 10 d.digits
  let places := digits.length + d.exponent
  if layout.positional (places - 1) then withPoint layout digits places
  else withExponent layout digits (places - 1)

def Layout.partsText (layout : Layout) : Parts → List Char
  | .nan => layout.nan.toList
  | .infinite negative => (if negative then ['-'] else []) ++ layout.infinite.toList
  | .finite negative m q =>
    (if negative then ['-'] else []) ++
      (if m = 0 then withPoint layout ['0'] 1 else (shortest layout.tie m q).text layout)

def Layout.text (layout : Layout) (x : Float) : String :=
  String.ofList (layout.partsText (parts x))

/-- Values and grammars show floats with a point or an exponent, the latter from `10 ^ 16` on and
below `10 ^ -4`. -/
def valueLayout : Layout where
  positional e := -4 ≤ e && e < 16
  pointZero := true
  exponentPlus := false
  tie := .up
  nan := "NaN"
  infinite := "inf"

/-- The text of a float as a string never has an exponent, and a point only before digits. -/
def plainLayout : Layout where
  positional _ := true
  pointZero := false
  exponentPlus := false
  tie := .up
  nan := "NaN"
  infinite := "inf"

/-- JSON has an exponent from `10 ^ 16` on and below `10 ^ -5`; it has no word for what is no
number but `null`. -/
def jsonLayout : Layout where
  positional e := -5 ≤ e && e < 16
  pointZero := true
  exponentPlus := true
  tie := .even
  nan := "null"
  infinite := "null"

end TextGrammar.Number
