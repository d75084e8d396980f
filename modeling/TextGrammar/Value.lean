import TextGrammar.Record
import TextGrammar.Number.Layout
import TextGrammar.Text.Quoted

/-! # Values

The result of a run, and what the expressions of an action compute with. -/

namespace TextGrammar

/-- A value. -/
inductive Value where
  | null
  | bool (b : Bool)
  | int (n : Int64)
  | float (x : Float)
  | str (s : String)
  | list (items : List Value)
  | record (fields : List (String × Value))
deriving Inhabited

namespace Value

def typeName : Value → String
  | .null => "null"
  | .bool _ => "bool"
  | .int _ => "integer"
  | .float _ => "float"
  | .str _ => "string"
  | .list _ => "list"
  | .record _ => "record"

mutual

/-- Structural equality: an integer is no float, floats are compared as numbers, and the fields
of records are compared in order. -/
def same : Value → Value → Bool
  | .null, .null => true
  | .bool a, .bool b => a == b
  | .int a, .int b => a == b
  | .float a, .float b => a == b
  | .str a, .str b => a == b
  | .list a, .list b => sameItems a b
  | .record a, .record b => sameFields a b
  | _, _ => false

def sameItems : List Value → List Value → Bool
  | [], [] => true
  | a :: as, b :: bs => same a b && sameItems as bs
  | _, _ => false

def sameFields : List (String × Value) → List (String × Value) → Bool
  | [], [] => true
  | (m, a) :: as, (n, b) :: bs => m == n && same a b && sameFields as bs
  | _, _ => false

end

mutual

/-- How a value is shown: strings are quoted, the items of lists and records are separated by
commas, and the names of fields stand as they are. -/
def text : Value → List Char
  | .null => "null".toList
  | .bool b => (toString b).toList
  | .int n => (toString n.toInt).toList
  | .float x => (Number.valueLayout.text x).toList
  | .str s => Text.quoted s.toList
  | .list items => '[' :: ([',', ' '].intercalate (itemTexts items) ++ [']'])
  | .record fields => '\x7b' :: ([',', ' '].intercalate (fieldTexts fields) ++ ['\x7d'])

def itemTexts : List Value → List (List Char)
  | [] => []
  | v :: vs => text v :: itemTexts vs

def fieldTexts : List (String × Value) → List (List Char)
  | [] => []
  | (name, v) :: rest => (name.toList ++ ':' :: ' ' :: text v) :: fieldTexts rest

end

def display (v : Value) : String := String.ofList v.text

def displayRecord (fields : Record Value) : String := display (.record fields)

end Value

end TextGrammar
