import TextGrammar.Value

/-! # Captures

A capture is what a pattern keeps of the input it matched. The names in a captured record are
those that the sequence binds, in order; unlike in a value they may repeat. -/

namespace TextGrammar

/-- What a matched pattern yields; `value` is computed by an action. -/
inductive Capture where
  | unit
  | text (s : String)
  | float (x : Float)
  | int (n : Int64)
  | list (items : List Capture)
  | record (fields : List (String × Capture))
  | value (v : Value)
deriving Inhabited

namespace Capture

def typeName : Capture → String
  | .unit => "null"
  | .text _ => "string"
  | .float _ => "float"
  | .int _ => "integer"
  | .list _ => "list"
  | .record _ => "record"
  | .value v => v.typeName

/-- The first field of a name in a captured record; a computed record has no captured fields. -/
def get? : Capture → String → Option Capture
  | .record fields, name => Record.get? fields name
  | _, _ => none

mutual

/-- The value of a capture. Of captured fields with one name the last value counts, in the place
of the first. -/
def toValue : Capture → Value
  | .unit => .null
  | .text s => .str s
  | .float x => .float x
  | .int n => .int n
  | .list items => .list (toValues items)
  | .record fields => .record (Record.ofList (toFields fields))
  | .value v => v

def toValues : List Capture → List Value
  | [] => []
  | c :: cs => toValue c :: toValues cs

def toFields : List (String × Capture) → List (String × Value)
  | [] => []
  | (name, c) :: rest => (name, toValue c) :: toFields rest

end

mutual

/-- The value of a capture that is given up for it: the values that it holds are not copied. -/
def intoValue : Capture → Value
  | .list items => .list (intoValues items)
  | .record fields => .record (Record.ofList (intoFields fields))
  | .value v => v
  | other => other.toValue

def intoValues : List Capture → List Value
  | [] => []
  | c :: cs => intoValue c :: intoValues cs

def intoFields : List (String × Capture) → List (String × Value)
  | [] => []
  | (name, c) :: rest => (name, intoValue c) :: intoFields rest

end

mutual

/-- It makes no difference for the value whether the capture is kept. -/
theorem intoValue_eq_toValue : ∀ c : Capture, c.intoValue = c.toValue
  | .list items => by rw [intoValue, toValue, intoValues_eq_toValues items]
  | .record fields => by rw [intoValue, toValue, intoFields_eq_toFields fields]
  | .unit | .text _ | .float _ | .int _ | .value _ => by simp [intoValue, toValue]

theorem intoValues_eq_toValues : ∀ cs : List Capture, intoValues cs = toValues cs
  | [] => rfl
  | c :: cs => by
    rw [intoValues, toValues, intoValue_eq_toValue c, intoValues_eq_toValues cs]

theorem intoFields_eq_toFields :
    ∀ fields : List (String × Capture), intoFields fields = toFields fields
  | [] => rfl
  | (name, c) :: rest => by
    rw [intoFields, toFields, intoValue_eq_toValue c, intoFields_eq_toFields rest]

end

end Capture

end TextGrammar
