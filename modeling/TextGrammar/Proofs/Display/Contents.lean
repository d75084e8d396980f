import TextGrammar.Grammar

/-! # What a grammar contains

The constants of the actions of a grammar, the texts that its display quotes, and the names that
its fields are bound to. -/

namespace TextGrammar

mutual

def Expr.constants : Expr → List Value
  | .literal v => [v]
  | .captured _ _ _ | .fetch _ _ => []
  | .index base position => base.constants ++ position.constants
  | .field base _ => base.constants
  | .call _ arguments => Expr.constantsOfAll arguments
  | .binary _ lhs rhs => lhs.constants ++ rhs.constants
  | .list items => Expr.constantsOfAll items
  | .record fields => Expr.constantsOfFields fields
  | .block body => body.constants

def Expr.constantsOfAll : List Expr → List Value
  | [] => []
  | e :: es => e.constants ++ Expr.constantsOfAll es

def Expr.constantsOfFields : List (String × Expr) → List Value
  | [] => []
  | (_, e) :: rest => e.constants ++ Expr.constantsOfFields rest

def Block.constants : Block → List Value
  | .mk stmts result => Stmt.constantsOfAll stmts ++ Expr.constantsOfResult result

def Expr.constantsOfResult : Option Expr → List Value
  | none => []
  | some e => e.constants

def Block.constantsOfOtherwise : Option Block → List Value
  | none => []
  | some b => b.constants

def Stmt.constantsOfAll : List Stmt → List Value
  | [] => []
  | s :: rest => s.constants ++ Stmt.constantsOfAll rest

def Stmt.constants : Stmt → List Value
  | .bind _ _ value | .assign _ _ _ value => value.constants
  | .loop _ _ start stop body => start.constants ++ (stop.constants ++ body.constants)
  | .branch condition yes no =>
    condition.constants ++ (yes.constants ++ Block.constantsOfOtherwise no)
  | .leave => []

end

namespace Pattern

def constants : Pattern → List Value
  | action _ _ _ body => body.constants
  | _ => []

def quoted : Pattern → List String
  | literal text => [text]
  | rule _ newName => newName.toList
  | _ => []

/-- The names that the fields of a sequence are bound to. -/
def bindings : Pattern → List String
  | sequence _ fields | action _ fields _ _ => fields.filterMap fun f => f.1.map (·.name)
  | _ => []

end Pattern

mutual

/-- A pattern and the patterns inside it. -/
def Pattern.parts : Pattern → List Pattern
  | .leaf l => [.leaf l]
  | .literal text => [.literal text]
  | .sequence slots fields => .sequence slots fields :: Pattern.partsOfFields fields
  | .action slots fields locals body =>
    .action slots fields locals body :: Pattern.partsOfFields fields
  | .repetition p => .repetition p :: p.parts
  | .choice alternatives => .choice alternatives :: Pattern.partsOfAll alternatives
  | .negation p => .negation p :: p.parts
  | .rule index newName => [.rule index newName]

def Pattern.partsOfAll : List Pattern → List Pattern
  | [] => []
  | p :: ps => p.parts ++ Pattern.partsOfAll ps

def Pattern.partsOfFields : List (Option Binding × Pattern) → List Pattern
  | [] => []
  | (_, p) :: rest => p.parts ++ Pattern.partsOfFields rest

end

namespace Grammar

def parts (g : Grammar) : List Pattern := g.rules.flatMap (·.body.parts)

def constants (g : Grammar) : List Value := g.parts.flatMap Pattern.constants

def floats (g : Grammar) : List Float :=
  g.constants.filterMap fun | .float x => some x | _ => none

/-- The texts that the display of a grammar quotes: its literals, its override names and its
string constants. -/
def quoted (g : Grammar) : List String :=
  g.parts.flatMap Pattern.quoted ++ g.constants.filterMap fun | .str s => some s | _ => none

/-- The names that the fields of a grammar are bound to. -/
def bindings (g : Grammar) : List String := g.parts.flatMap Pattern.bindings

end Grammar

end TextGrammar
