import TextGrammar.Number.Parts

/-! # The shortest decimal of a float

Of the decimals that read back to a float, one with the fewest digits is chosen, and of those
the one nearest to it. The numbers that read back to `m · 2 ^ q` are those between the middles
to its two neighbours, the middles among them iff `m` is even. All comparisons are exact, on
natural numbers with a common denominator. -/

namespace TextGrammar.Number

structure Decimal where
  digits : Nat
  exponent : Int
deriving DecidableEq, Repr

inductive Tie where
  | up
  | even
deriving DecidableEq, Repr

/-- A positive number and the bounds of what reads back to it, as numerators over one
denominator. -/
structure Band where
  low : Nat
  value : Nat
  high : Nat
  denominator : Nat
  closed : Bool

/-- The band of `m · 2 ^ q`. The lower neighbour is nearer by half when `m` is the least of its
binade, unless there is no smaller binade. -/
def Band.ofParts (m : Nat) (q : Int) : Band :=
  let scale := Nat.pow 2 (q - 2).toNat
  let below := if m = Nat.pow 2 52 ∧ -1074 < q then 1 else 2
  ⟨(4 * m - below) * scale, 4 * m * scale, (4 * m + 2) * scale, Nat.pow 2 (2 - q).toNat,
    m % 2 = 0⟩

/-- Whether `numerator / denominator` reads back to the number of a band. -/
def Band.holds (b : Band) (numerator denominator : Nat) : Bool :=
  let scaled := numerator * b.denominator
  if b.closed then b.low * denominator ≤ scaled && scaled ≤ b.high * denominator
  else b.low * denominator < scaled && scaled < b.high * denominator

def Band.magnitude (b : Band) : Int :=
  if b.denominator ≤ b.value then (Nat.toDigits 10 (b.value / b.denominator)).length
  else
    let places := (Nat.toDigits 10 (b.denominator / b.value)).length
    if b.denominator ≤ b.value * Nat.pow 10 (places - 1) then 2 - (places : Int)
    else 1 - (places : Int)

/-- The nearest decimal on the grid of step `10 ^ exponent`, if a neighbour of the number on
that grid reads back to it. -/
def Band.onGrid? (b : Band) (tie : Tie) (exponent : Int) : Option Decimal :=
  let up := Nat.pow 10 exponent.toNat
  let down := Nat.pow 10 (-exponent).toNat
  let step := b.denominator * up
  let scaledValue := b.value * down
  let below := scaledValue / step
  let rest := scaledValue % step
  let nearer :=
    if 2 * rest < step then below
    else if step < 2 * rest then below + 1
    else match tie with
      | .up => below + 1
      | .even => if below % 2 = 0 then below else below + 1
  let farther := 2 * below + 1 - nearer
  if b.holds (nearer * up) down then some ⟨nearer, exponent⟩
  else if b.holds (farther * up) down then some ⟨farther, exponent⟩
  else none

/-- Tries finer and finer grids; seventeen digits are enough for every float. -/
def Band.shortestFrom (b : Band) (tie : Tie) : (tries : Nat) → (exponent : Int) → Decimal
  | 0, exponent =>
    ⟨b.value * Nat.pow 10 (-exponent).toNat / (b.denominator * Nat.pow 10 exponent.toNat),
      exponent⟩
  | tries + 1, exponent =>
    match b.onGrid? tie exponent with
    | some d => d
    | none => b.shortestFrom tie tries (exponent - 1)

def Decimal.strip : (zeros : Nat) → Decimal → Decimal
  | 0, d => d
  | zeros + 1, d =>
    if d.digits ≠ 0 ∧ d.digits % 10 = 0 then strip zeros ⟨d.digits / 10, d.exponent + 1⟩ else d

/-- The shortest decimal that reads back to the positive float `m · 2 ^ q`. -/
def shortest (tie : Tie) (m : Nat) (q : Int) : Decimal :=
  let b := Band.ofParts m q
  (b.shortestFrom tie 17 (b.magnitude - 1)).strip 17

end TextGrammar.Number
