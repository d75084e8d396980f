import TextGrammar.Number.Parts

/-! # Integers of 64 bits

Integer arithmetic is exact or fails: a result outside of the range is no integer. An integer
becomes the nearest float, and a float becomes an integer only if it is one. -/

namespace TextGrammar.Number

def InRange (n : Int) : Prop := -Int.pow 2 63 ≤ n ∧ n < Int.pow 2 63

instance (n : Int) : Decidable (InRange n) := inferInstanceAs (Decidable (_ ∧ _))

def integer? (n : Int) : Option Int64 := if InRange n then some (Int64.ofInt n) else none

theorem inRange_toInt (n : Int64) : InRange n.toInt := ⟨n.le_toInt, n.toInt_lt⟩

theorem integer?_toInt (n : Int64) : integer? n.toInt = some n := by
  rw [integer?, if_pos (inRange_toInt n), Int64.ofInt_toInt]

theorem toInt_of_integer? {n : Int} {i : Int64} (h : integer? n = some i) : i.toInt = n := by
  unfold integer? at h
  split at h
  · rename_i hr
    rw [← Option.some.inj h]
    exact Int64.toInt_ofInt_of_le (by exact hr.1) (by exact hr.2)
  · cases h

/-- The float nearest to an integer; of two that are equally near, the even one. -/
def toFloat (n : Int64) : Float := ⟨Float.Model.ofInt n.toInt⟩

def scaled? (m : Nat) (q : Int) : Option Nat :=
  if 0 ≤ q then some (m * Nat.pow 2 q.toNat)
  else if m % Nat.pow 2 (-q).toNat = 0 then some (m / Nat.pow 2 (-q).toNat)
  else none

/-- The integer equal to a float, if there is one of less than `2 ^ 63` in magnitude. -/
def ofFloat? (x : Float) : Option Int64 :=
  match parts x with
  | .finite negative m q =>
    match scaled? m q with
    | some n =>
      if n < Nat.pow 2 63 then some (Int64.ofInt (if negative then -(n : Int) else n)) else none
    | none => none
  | _ => none

end TextGrammar.Number
