import TextGrammar.Value

/-! # JSON texts of values

A value has a compact JSON text without any blanks, and a pretty one with a line for each member
and two blanks of indentation for each level. Lists become arrays, records become objects with
their fields in order, and a float that is no number becomes `null`. -/

namespace TextGrammar.Json

/-- How the members of arrays and objects are set apart. -/
inductive Style where
  | compact
  | pretty
deriving DecidableEq, Repr

def Style.lineBreak : Style → Nat → List Char
  | .compact, _ => []
  | .pretty, level => '\n' :: List.replicate (2 * level) ' '

def Style.colon : Style → List Char
  | .compact => [':']
  | .pretty => [':', ' ']

def stringChar (c : Char) : List Char :=
  match c with
  | '"' => ['\\', '"']
  | '\\' => ['\\', '\\']
  | '\x08' => ['\\', 'b']
  | '\x0c' => ['\\', 'f']
  | '\n' => ['\\', 'n']
  | '\r' => ['\\', 'r']
  | '\t' => ['\\', 't']
  | c =>
    if c.toNat < 0x20 then
      ['\\', 'u', '0', '0', Nat.digitChar (c.toNat / 16), Nat.digitChar (c.toNat % 16)]
    else [c]

def string (s : String) : List Char := '"' :: (s.toList.flatMap stringChar ++ ['"'])

mutual

def valueText (style : Style) (level : Nat) : Value → List Char
  | .null => "null".toList
  | .bool b => (toString b).toList
  | .int n => (toString n.toInt).toList
  | .float x =>
    match Number.parts x with
    | .finite .. => (Number.jsonLayout.text x).toList
    | _ => "null".toList
  | .str s => string s
  | .list [] => ['[', ']']
  | .list (v :: vs) =>
    '[' :: (style.lineBreak (level + 1) ++ valueText style (level + 1) v ++
      itemsText style (level + 1) vs ++ style.lineBreak level ++ [']'])
  | .record [] => ['\x7b', '\x7d']
  | .record ((name, v) :: rest) =>
    '\x7b' :: (style.lineBreak (level + 1) ++ string name ++ style.colon ++
      valueText style (level + 1) v ++ fieldsText style (level + 1) rest ++
      style.lineBreak level ++ ['\x7d'])

def itemsText (style : Style) (level : Nat) : List Value → List Char
  | [] => []
  | v :: vs =>
    ',' :: (style.lineBreak level ++ valueText style level v ++ itemsText style level vs)

def fieldsText (style : Style) (level : Nat) : List (String × Value) → List Char
  | [] => []
  | (name, v) :: rest =>
    ',' :: (style.lineBreak level ++ string name ++ style.colon ++ valueText style level v ++
      fieldsText style level rest)

end

def text (style : Style) (v : Value) : String := String.ofList (valueText style 0 v)

end TextGrammar.Json
