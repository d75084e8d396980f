/-! # The parts of a float

A finite float is a sign and a magnitude `m · 2 ^ q` with natural `m` and integral `q`. Exact
statements about floats and exact decimal text are made on these parts. -/

namespace TextGrammar.Number

/-- What a float stands for. -/
inductive Parts where
  | nan
  | infinite (negative : Bool)
  | finite (negative : Bool) (m : Nat) (q : Int)
deriving DecidableEq, Repr

/-- The parts that 64 bits encode: one sign bit, eleven bits of exponent, 52 bits of fraction. -/
def Parts.ofBits (bits : Nat) : Parts :=
  let negative := bits / Nat.pow 2 63 % 2 = 1
  let exponent : Nat := bits / Nat.pow 2 52 % Nat.pow 2 11
  let fraction := bits % Nat.pow 2 52
  if exponent = Nat.pow 2 11 - 1 then
    if fraction = 0 then .infinite negative else .nan
  else if exponent = 0 then .finite negative fraction (-1074)
  else .finite negative (Nat.pow 2 52 + fraction) ((exponent : Int) - 1075)

def parts (x : Float) : Parts := .ofBits x.toBits.toNat

end TextGrammar.Number
