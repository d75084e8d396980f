import TextGrammar.Grammar

/-! # Grammars as text

A grammar is written in the grammar language with all its structure in view: choices and binary
expressions stand in parentheses, every bound field has its name in front, all variables are
mutable, and the statements of a block stand on lines of their own, four blanks deeper than the
block. -/

namespace TextGrammar

def indent (level : Nat) : List Char := List.replicate (4 * level) ' '

def commaSeparated (texts : List (List Char)) : List Char := [',', ' '].intercalate texts

mutual

def Expr.text (level : Nat) : Expr → List Char
  | .literal v => v.text
  | .captured name _ _ | .fetch name _ => name.toList
  | .index base position => Expr.text level base ++ '[' :: (Expr.text level position ++ [']'])
  | .field base name => Expr.text level base ++ '.' :: name.toList
  | .call callee arguments =>
    callee.toList ++ '(' :: (commaSeparated (Expr.texts level arguments) ++ [')'])
  | .binary op lhs rhs =>
    '(' :: (Expr.text level lhs ++ ' ' :: (op.symbol.toList ++ ' ' :: Expr.text level rhs) ++ [')'])
  | .list items => '[' :: (commaSeparated (Expr.texts level items) ++ [']'])
  | .record fields =>
    '\x7b' :: ([','].intercalate (Expr.fieldTexts level fields) ++ [' ', '\x7d'])
  | .block body => Block.text level body

def Expr.texts (level : Nat) : List Expr → List (List Char)
  | [] => []
  | e :: es => Expr.text level e :: Expr.texts level es

def Expr.fieldTexts (level : Nat) : List (String × Expr) → List (List Char)
  | [] => []
  | (name, e) :: rest =>
    (' ' :: (name.toList ++ ':' :: ' ' :: Expr.text level e)) :: Expr.fieldTexts level rest

def Block.text (level : Nat) : Block → List Char
  | .mk stmts result =>
    '\x7b' :: '\n' :: (Stmt.lines (level + 1) stmts ++ Block.resultLine (level + 1) result ++
      indent level ++ ['\x7d'])

def Block.resultLine (level : Nat) : Option Expr → List Char
  | none => []
  | some e => indent level ++ Expr.text level e ++ ['\n']

def Stmt.lines (level : Nat) : List Stmt → List Char
  | [] => []
  | s :: rest => indent level ++ Stmt.text level s ++ '\n' :: Stmt.lines level rest

def Stmt.text (level : Nat) : Stmt → List Char
  | .bind name _ value =>
    "let mut ".toList ++ name.toList ++ " = ".toList ++ Expr.text level value ++ [';']
  | .assign name _ mode value =>
    name.toList ++ ' ' :: (mode.symbol.toList ++ ' ' :: Expr.text level value) ++ [';']
  | .loop name _ start stop body =>
    "for ".toList ++ name.toList ++ " in ".toList ++ Expr.text level start ++ "..".toList ++
      Expr.text level stop ++ ' ' :: Block.text level body
  | .branch condition yes no =>
    "if ".toList ++ Expr.text level condition ++ ' ' :: Block.text level yes ++
      Stmt.otherwiseText level no
  | .leave => "break;".toList

def Stmt.otherwiseText (level : Nat) : Option Block → List Char
  | none => []
  | some b => " else ".toList ++ Block.text level b

end

namespace Expr
variable {level : Nat} {cs : List Char}

theorem text_literal (v : Value) : (literal v).text level = v.text := by rw [text]

theorem text_index_append (base position : Expr) :
    (index base position).text level ++ cs =
      base.text level ++ '[' :: (position.text level ++ ']' :: cs) := by
  simp [text]

theorem text_field_append (base : Expr) (name : String) :
    (field base name).text level ++ cs = base.text level ++ '.' :: (name.toList ++ cs) := by
  simp [text]

theorem text_binary_append (op : Operator) (lhs rhs : Expr) :
    (binary op lhs rhs).text level ++ cs =
      '(' :: (lhs.text level ++ ' ' ::
        (op.symbol.toList ++ ' ' :: (rhs.text level ++ ')' :: cs))) := by
  simp [text]

end Expr

def Binding.text : Option Binding → List Char
  | none => []
  | some b => b.name.toList ++ " <- ".toList

mutual

def Pattern.text (nameOf : Nat → String) : Pattern → List Char
  | .leaf l => l.name.toList
  | .literal s => Text.quoted s.toList
  | .sequence _ fields => '[' :: (commaSeparated (Pattern.fieldTexts nameOf fields) ++ [']'])
  | .action _ fields _ body =>
    '[' :: (commaSeparated (Pattern.fieldTexts nameOf fields) ++ ']' ::
      (" => ".toList ++ Expr.text 1 body))
  | .repetition p => "repeat ".toList ++ Pattern.text nameOf p
  | .choice alternatives =>
    '(' :: ([' ', '|', ' '].intercalate (Pattern.texts nameOf alternatives) ++ [')'])
  | .negation p => '!' :: Pattern.text nameOf p
  | .rule index newName =>
    (nameOf index).toList ++
      match newName with
      | none => []
      | some s => ':' :: Text.quoted s.toList

def Pattern.texts (nameOf : Nat → String) : List Pattern → List (List Char)
  | [] => []
  | p :: ps => Pattern.text nameOf p :: Pattern.texts nameOf ps

def Pattern.fieldTexts (nameOf : Nat → String) : List (Option Binding × Pattern) →
    List (List Char)
  | [] => []
  | (b, p) :: rest => (Binding.text b ++ Pattern.text nameOf p) :: Pattern.fieldTexts nameOf rest

end

namespace Grammar

def ruleLine (g : Grammar) (r : Rule) : List Char :=
  indent 1 ++ r.name.toList ++ " := ".toList ++ r.body.text g.nameOf ++ [';', '\n']

def text (g : Grammar) : List Char :=
  "meta \x7b\n".toList ++ g.rules.flatMap g.ruleLine ++ indent 1 ++ "---\n".toList ++
    indent 1 ++ (g.nameOf g.start).toList ++ ['\n', '\x7d']

def display (g : Grammar) : String := String.ofList g.text

end Grammar

end TextGrammar
