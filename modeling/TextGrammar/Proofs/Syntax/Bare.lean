import TextGrammar.Source.Tree

/-! # Source trees without places

Two source trees are the same but for the places of their tokens if they are equal when every span
is forgotten. Forgetting commutes with the places that parentheses give. -/

namespace TextGrammar.Source

def noSpan : Span := .point 0

def Name.bare (n : Name) : Name := ⟨n.text, noSpan⟩

mutual

def Expr.bare : Expr → Expr
  | .int _ n => .int noSpan n
  | .float _ x => .float noSpan x
  | .str _ s => .str noSpan s
  | .bool _ b => .bool noSpan b
  | .null _ => .null noSpan
  | .name _ text => .name noSpan text
  | .index _ base position => .index noSpan base.bare position.bare
  | .field _ base name => .field noSpan base.bare name.bare
  | .call _ callee es => .call noSpan callee.bare (Expr.bareAll es)
  | .binary _ op lhs rhs => .binary noSpan op lhs.bare rhs.bare
  | .list _ es => .list noSpan (Expr.bareAll es)
  | .record _ fields => .record noSpan (Expr.bareFields fields)
  | .block _ b => .block noSpan b.bare

def Expr.bareAll : List Expr → List Expr
  | [] => []
  | e :: es => e.bare :: Expr.bareAll es

def Expr.bareFields : List (Name × Expr) → List (Name × Expr)
  | [] => []
  | (name, e) :: fields => (name.bare, e.bare) :: Expr.bareFields fields

def Block.bare : Block → Block
  | .mk ss none => .mk (Stmt.bareAll ss) none
  | .mk ss (some e) => .mk (Stmt.bareAll ss) (some e.bare)

def Stmt.bareAll : List Stmt → List Stmt
  | [] => []
  | s :: ss => s.bare :: Stmt.bareAll ss

def Stmt.bare : Stmt → Stmt
  | .bind _ name mutable value => .bind noSpan name.bare mutable value.bare
  | .assign _ name mode value => .assign noSpan name.bare mode value.bare
  | .loop _ name start stop body => .loop noSpan name.bare start.bare stop.bare body.bare
  | .branch _ condition yes none => .branch noSpan condition.bare yes.bare none
  | .branch _ condition yes (some no) => .branch noSpan condition.bare yes.bare (some no.bare)
  | .leave _ => .leave noSpan

end

theorem Expr.bareAll_eq_map (es : List Expr) : Expr.bareAll es = es.map Expr.bare := by
  induction es with
  | nil => rfl
  | cons e es ih => rw [Expr.bareAll, ih, List.map_cons]

def bareEntry (f : Name × Expr) : Name × Expr := (f.1.bare, f.2.bare)

theorem Expr.bareFields_eq_map (fields : List (Name × Expr)) :
    Expr.bareFields fields = fields.map bareEntry := by
  induction fields with
  | nil => rfl
  | cons f fields ih => rw [Expr.bareFields, ih, List.map_cons, bareEntry]

theorem Stmt.bareAll_eq_map (ss : List Stmt) : Stmt.bareAll ss = ss.map Stmt.bare := by
  induction ss with
  | nil => rfl
  | cons s ss ih => rw [Stmt.bareAll, ih, List.map_cons]

@[simp] theorem Expr.bare_withSpan (e : Expr) (s : Span) : (e.withSpan s).bare = e.bare := by
  cases e <;> rfl

theorem Block.bare_mk (ss : List Stmt) (result : Option Expr) :
    (Block.mk ss result).bare = .mk (ss.map Stmt.bare) (result.map Expr.bare) := by
  cases result <;> rw [Block.bare, Stmt.bareAll_eq_map] <;> rfl

theorem Stmt.bare_branch (span : Span) (condition : Expr) (yes : Block) (no : Option Block) :
    (Stmt.branch span condition yes no).bare =
      .branch noSpan condition.bare yes.bare (no.map Block.bare) := by
  cases no <;> rfl

mutual

def Pattern.bare : Pattern → Pattern
  | .name _ text => .name noSpan text
  | .literal _ text => .literal noSpan text
  | .sequence _ fields action =>
    .sequence noSpan (Pattern.bareFields fields) (action.map Expr.bare)
  | .repetition _ p => .repetition noSpan p.bare
  | .choice _ ps => .choice noSpan (Pattern.bareAll ps)
  | .negation _ p => .negation noSpan p.bare
  | .rename _ p newName => .rename noSpan p.bare newName.bare

def Pattern.bareAll : List Pattern → List Pattern
  | [] => []
  | p :: ps => p.bare :: Pattern.bareAll ps

def Pattern.bareFields : List (Option Name × Pattern) → List (Option Name × Pattern)
  | [] => []
  | (label, p) :: fields => (label.map Name.bare, p.bare) :: Pattern.bareFields fields

end

theorem Pattern.bareAll_eq_map (ps : List Pattern) : Pattern.bareAll ps = ps.map Pattern.bare := by
  induction ps with
  | nil => rfl
  | cons p ps ih => rw [Pattern.bareAll, ih, List.map_cons]

def bareField (f : Field) : Field := (f.1.map Name.bare, f.2.bare)

theorem Pattern.bareFields_eq_map (fields : List Field) :
    Pattern.bareFields fields = fields.map bareField := by
  induction fields with
  | nil => rfl
  | cons f fields ih => rw [Pattern.bareFields, ih, List.map_cons, bareField]

@[simp] theorem Pattern.bare_withSpan (p : Pattern) (s : Span) : (p.withSpan s).bare = p.bare := by
  cases p <;> rfl

def Rule.bare (r : Rule) : Rule := ⟨r.name.bare, r.body.bare⟩

/-- A source without its places; the number of its separators is kept. -/
def File.bare (file : File) : File where
  rules := file.rules.map Rule.bare
  separators := file.separators.map fun _ => noSpan
  starts := file.starts.map Pattern.bare
  close := noSpan

end TextGrammar.Source
