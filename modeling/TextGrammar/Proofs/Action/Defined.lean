import TextGrammar.Action.Evaluation

/-! # Computations that name no variable

Operators, builtin functions, indices and fields fault for many reasons, but none of them finds a
variable undefined. -/

namespace TextGrammar.Action
variable {α β : Type}

def Defined (m : Except Fault α) : Prop := ∀ name, m ≠ .error (.undefinedVariable name)

theorem Defined.bind {m : Except Fault α} {f : α → Except Fault β} (hm : Defined m)
    (hf : ∀ x, Defined (f x)) : Defined (m >>= f) := by
  intro name h
  cases m with
  | error fault => exact hm name (congrArg _ (Except.error.inj h))
  | ok x => exact hf x name h

theorem Defined.map {m : Except Fault α} {f : α → β} (hm : Defined m) : Defined (m.map f) := by
  intro name h
  cases m with
  | error fault => exact hm name (congrArg _ (Except.error.inj h))
  | ok x => cases h

theorem item_defined (items : List α) (i : Int64) : Defined (Operand.item items i) := by
  intro name h
  unfold Operand.item at h
  split at h
  · split at h <;> cases h
  · cases h

theorem index_defined (o : Operand) (position : Value) : Defined (o.index position) := by
  unfold Operand.index
  split
  · split
    · exact (item_defined _ _).map
    · exact (item_defined _ _).map
    · exact (item_defined _ _).map
    · nofun
  · nofun

theorem field_defined (o : Operand) (name : String) : Defined (o.field name) := by
  unfold Operand.field
  split
  · split <;> nofun
  · split <;> nofun
  · split <;> nofun
  · nofun

theorem valueLength_defined (v : Value) : Defined (Operand.valueLength v) := by
  unfold Operand.valueLength
  split <;> nofun

theorem length_defined (o : Operand) : Defined o.length := by
  unfold Operand.length
  split
  · nofun
  · nofun
  · exact valueLength_defined _
  · exact valueLength_defined _
  · nofun

theorem counted_defined (n : Int) : Defined (counted n) := by
  unfold counted
  split <;> nofun

theorem apply_defined (b : Builtin) (o : Operand) : Defined (b.apply o) := by
  cases b with
  | len =>
    exact (length_defined o).bind fun n => counted_defined n
  | clone => nofun
  | trim =>
    simp only [Builtin.apply, trimmed]
    split <;> nofun
  | str =>
    simp only [Builtin.apply, toText]
    split <;> nofun
  | num =>
    simp only [Builtin.apply, toNumber]
    split
    · nofun
    · nofun
    · split <;> nofun
    · nofun
  | int =>
    simp only [Builtin.apply, toInteger]
    split
    · nofun
    · split <;> nofun
    · split <;> nofun
    · nofun

theorem arithmetic_defined (op : Operator) (exactly : Int → Int → Int)
    (roughly : Float → Float → Float) (lhs rhs : Value) :
    Defined (arithmetic op exactly roughly lhs rhs) := by
  unfold arithmetic
  split
  · unfold exact
    split <;> nofun
  · split <;> nofun

theorem compare_defined (op : Operator) (lhs rhs : Value) : Defined (compare op lhs rhs) := by
  unfold compare
  split <;> nofun

theorem binary_defined (op : Operator) (lhs rhs : Value) : Defined (binary op lhs rhs) := by
  unfold binary
  split
  · unfold add
    split
    · nofun
    · nofun
    · exact arithmetic_defined _ _ _ lhs rhs
  · exact arithmetic_defined _ _ _ lhs rhs
  · exact arithmetic_defined _ _ _ lhs rhs
  · nofun
  · nofun
  · exact compare_defined op lhs rhs

theorem append_defined (old new : Value) : Defined (append old new) := by
  unfold append
  split
  · nofun
  · nofun
  · exact binary_defined _ old new

theorem asInteger_defined (o : Operand) : Defined (asInteger o) := by
  unfold asInteger
  split <;> nofun

end TextGrammar.Action
