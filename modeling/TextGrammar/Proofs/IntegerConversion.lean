import TextGrammar.Proofs.Action.Variables
import TextGrammar.Proofs.Number.Exactness

/-! # Converting integers and floats

An integer becomes the float nearest to it, and a float that is an integer becomes that integer,
so that nothing is lost on the way there and back if the integer is a float. The one exception is
`-2 ^ 63`: it is an integer of 64 bits and a float, and yet no float is converted to it. -/

namespace TextGrammar
open Number (value? nearestInt)

namespace Action
variable {frames : List Frame} {e : Expr} {L M : Locals} {o : Operand}

theorem Builtin.ofName?_name (b : Builtin) : Builtin.ofName? b.name = some b := by
  cases b <;> rfl

/-- A call of a builtin function applies it to what the argument yields. -/
theorem call_run (b : Builtin) (ho : Yields (operand frames e) L o M) :
    (operand frames (.call b.name [e])).run L = (b.apply o).map fun v => (.owned v, M) := by
  cases hv : b.apply o with
  | error fault =>
    have hfault : Faults (operand frames (.call b.name [e])) L fault := by
      simp only [operand, Builtin.ofName?_name, faults_bind, faults_lift]
      exact .inr ⟨o, M, ho, .inl hv⟩
    exact hfault
  | ok v =>
    have hyield : Yields (operand frames (.call b.name [e])) L (.owned v) M := by
      simp only [operand, Builtin.ofName?_name, yields_bind, yields_lift, yields_pure]
      exact ⟨o, M, ho, v, M, ⟨hv, rfl⟩, rfl, rfl⟩
    exact hyield

theorem call_yields {b : Builtin} {v : Value} (ho : Yields (operand frames e) L o M)
    (hv : b.apply o = .ok v) : Yields (operand frames (.call b.name [e])) L (.owned v) M := by
  rw [Yields, call_run b ho, hv]
  rfl

theorem call_faults {b : Builtin} {fault : Fault} (ho : Yields (operand frames e) L o M)
    (hv : b.apply o = .error fault) : Faults (operand frames (.call b.name [e])) L fault := by
  rw [Faults, call_run b ho, hv]
  rfl

/-- A float is converted to the integer that it is. -/
theorem toInteger_of_value? {x : Float} {n : Int64} (hx : value? x = some (n.toInt : ℚ))
    (hn : -2 ^ 63 < n.toInt) : toInteger (.float x) = .ok (.int n) := by
  rw [toInteger, Number.ofFloat?_eq_some.2 ⟨hx, hn⟩]

/-- A float that is no integer above `-2 ^ 63` and below `2 ^ 63` is not converted. -/
theorem toInteger_eq_error {x : Float}
    (hx : ∀ z : Int, value? x = some (z : ℚ) → ¬(-2 ^ 63 < z ∧ z < 2 ^ 63)) :
    toInteger (.float x) = .error (.conversion (Value.float x).display "integer") := by
  have hnone : Number.ofFloat? x = none := by
    cases h : Number.ofFloat? x with
    | none => rfl
    | some n =>
      obtain ⟨hvalue, hlow⟩ := Number.ofFloat?_eq_some.1 h
      exact absurd ⟨hlow, n.toInt_lt⟩ (hx n.toInt hvalue)
  rw [toInteger, hnone]

end Action

open TextGrammar.Action (Frame Locals Operand operand)

/-- Conversions of what an expression yields. A float becomes an integer if and only if it is
finite, integral, above `-2 ^ 63` and below `2 ^ 63`, and becomes the integer that it is; any other
one faults. An integer that is a float, other than `-2 ^ 63`, is what it was when it is converted
to a float and back. -/
theorem integer_conversion {frames : List Frame} {e : Expr} {L M : Locals} {o : Operand}
    (ho : Yields (operand frames e) L o M) :
    (∀ x (z : Int), o.toValue = .float x → value? x = some (z : ℚ) → -2 ^ 63 < z → z < 2 ^ 63 →
      ∃ n : Int64, n.toInt = z ∧ Yields (operand frames (.call "int" [e])) L (.owned (.int n)) M) ∧
    (∀ x, o.toValue = .float x →
      (∀ z : Int, value? x = some (z : ℚ) → ¬(-2 ^ 63 < z ∧ z < 2 ^ 63)) →
      Faults (operand frames (.call "int" [e])) L
        (.conversion (Value.float x).display "integer")) ∧
    (∀ n : Int64, o.toValue = .int n → (∃ x, value? x = some (n.toInt : ℚ)) → -2 ^ 63 < n.toInt →
      Yields (operand frames (.call "int" [.call "num" [e]])) L (.owned (.int n)) M) := by
  refine ⟨fun x z hx hz hlow hhigh => ?_, fun x hx hz => ?_, fun n hn hrepresentable hlow => ?_⟩
  · have hvalue : (Int64.ofInt z).toInt = z := Int64.toInt_ofInt_of_le hlow.le hhigh
    refine ⟨.ofInt z, hvalue, Action.call_yields (b := .int) ho ?_⟩
    rw [Action.Builtin.apply, hx]
    exact Action.toInteger_of_value? (hvalue.symm ▸ hz) (hvalue.symm ▸ hlow)
  · refine Action.call_faults (b := .int) ho ?_
    rw [Action.Builtin.apply, hx]
    exact Action.toInteger_eq_error hz
  · obtain ⟨x, hx⟩ := hrepresentable
    have hnum : Action.Builtin.num.apply o = .ok (.float (Number.toFloat n)) := by
      rw [Action.Builtin.apply, hn, Action.toNumber]
    refine Action.call_yields (b := .int) (Action.call_yields (b := .num) ho hnum) ?_
    refine Action.toInteger_of_value? ?_ hlow
    rw [Number.value?_toFloat, Number.nearestInt_of_value? hx]

/-- One float that is an integer and one that is none, and an integer beyond `2 ^ 53` that is a
float. -/
theorem integer_conversion_instances :
    (∃ n : Int64, n.toInt = 4 ∧
      Yields (operand [] (.call "int" [.literal (.float 4.0)])) [] (.owned (.int n)) []) ∧
    Faults (operand [] (.call "int" [.literal (.float 4.5)])) []
      (.conversion (Value.float 4.5).display "integer") ∧
    Yields (operand [] (.call "int" [.call "num" [.literal (.int 9007199254740994)]])) []
      (.owned (.int 9007199254740994)) [] := by
  have hliteral (v : Value) : Yields (operand [] (.literal v)) [] (.borrowed v) [] :=
    yields_pure.2 ⟨rfl, rfl⟩
  have hfour : value? 4.0 = some ((4 : Int) : ℚ) := by
    have hparts : Number.parts 4.0 = .finite false (2 ^ 52) (-50) := by decide +kernel
    rw [value?, hparts]
    norm_num [Number.Parts.value?]
  have hhalves : value? 4.5 = some (9 / 2) := by
    have hparts : Number.parts 4.5 = .finite false (9 * 2 ^ 49) (-50) := by decide +kernel
    rw [value?, hparts]
    norm_num [Number.Parts.value?]
  have hlarge : nearestInt (9007199254740994 : Int64).toInt = (9007199254740994 : Int64).toInt := by
    decide +kernel
  refine ⟨(integer_conversion (hliteral _)).1 4.0 4 rfl hfour (by decide) (by decide),
    (integer_conversion (hliteral _)).2.1 4.5 rfl fun z hz => ?_,
    (integer_conversion (hliteral _)).2.2 _ rfl ⟨Number.toFloat 9007199254740994, ?_⟩ (by decide)⟩
  · rw [hhalves, Option.some_inj, div_eq_iff two_ne_zero] at hz
    have hodd : 9 = z * 2 := by exact_mod_cast hz
    omega
  · rw [Number.value?_toFloat, hlarge]

/-- The least integer is a float, and is what its text is converted to. But it is lost on the way
to a float and back, since no float is converted to it. -/
theorem integer_conversion_least :
    (∃ x, value? x = some ((-9223372036854775808 : Int64).toInt : ℚ)) ∧
    Yields (operand [] (.call "int" [.literal (.str "-9223372036854775808")])) []
      (.owned (.int (-9223372036854775808))) [] ∧
    Faults (operand [] (.call "int" [.call "num" [.literal (.int (-9223372036854775808))]])) []
      (.conversion "-9.223372036854776e18" "integer") := by
  have hliteral (v : Value) : Yields (operand [] (.literal v)) [] (.borrowed v) [] :=
    yields_pure.2 ⟨rfl, rfl⟩
  have hread : Number.readInteger? (Text.trim "-9223372036854775808".toList) =
      some (-9223372036854775808) := by decide +kernel
  have hshown : (Value.float (Number.toFloat (-9223372036854775808))).display =
      "-9.223372036854776e18" := by decide +kernel
  have hleast : nearestInt (-9223372036854775808 : Int64).toInt =
      (-9223372036854775808 : Int64).toInt := by decide +kernel
  have hvalue := Number.value?_toFloat (-9223372036854775808)
  rw [hleast] at hvalue
  refine ⟨⟨_, hvalue⟩, Action.call_yields (b := .int) (hliteral _) ?_,
    Action.call_faults (b := .int) (Action.call_yields (b := .num) (hliteral _) rfl) ?_⟩
  · simp only [Action.Builtin.apply, Operand.toValue, Action.toInteger, hread]
  · rw [← hshown, Action.Builtin.apply, Operand.toValue]
    refine Action.toInteger_eq_error fun z hz => ?_
    rw [hvalue, Option.some_inj, Int.cast_inj] at hz
    rw [← hz]
    decide

end TextGrammar
