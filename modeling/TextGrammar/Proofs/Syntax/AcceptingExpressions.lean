import TextGrammar.Proofs.Syntax.Accepting
import TextGrammar.Proofs.Syntax.Expressions
import TextGrammar.Proofs.Syntax.Openings

/-! # Spelled expressions are accepted

Every spelling of an expression is parsed as that expression, in front of anything that does not
carry it on. A sum, a product and an operand with suffixes are a first part and the repeated steps
that follow it, so their spellings are taken from the left, whatever is made of what follows. -/

namespace TextGrammar.Source.Parser
open Token (Kind)
variable {top n m k d f : Nat} {e : Expr} {ws ws' rest more : List Mark}

structure EndsOperand (ws : List Mark) : Prop where
  paren : frontKind ws ≠ some (.symbol .leftParen)
  bracket : frontKind ws ≠ some (.symbol .leftBracket)
  dot : frontKind ws ≠ some (.symbol .dot)

structure EndsProduct (ws : List Mark) : Prop extends EndsOperand ws where
  product : product? (frontKind ws) = none

structure EndsSum (ws : List Mark) : Prop extends EndsProduct ws where
  sum : sum? (frontKind ws) = none

structure EndsExpr (ws : List Mark) : Prop extends EndsSum ws where
  comparison : comparison? (frontKind ws) = none

def continuers : List Kind :=
  [.symbol .leftParen, .symbol .leftBracket, .symbol .dot, .symbol .star, .symbol .plus,
    .symbol .minus, .symbol .equal, .symbol .notEqual, .symbol .less, .symbol .lessEqual,
    .symbol .greater, .symbol .greaterEqual]

theorem endsExpr_of_front (h : ∀ kind ∈ continuers, frontKind ws ≠ some kind) : EndsExpr ws := by
  have hnone : ∀ op : Operator, frontKind ws ≠ some op.kind :=
    fun op => h _ (by cases op <;> decide)
  refine ⟨⟨⟨⟨h _ (by decide), h _ (by decide), h _ (by decide)⟩, ?_⟩, ?_⟩, ?_⟩
  · exact Option.eq_none_iff_forall_ne_some.2 fun op hop => hnone op (product?_eq_some.1 hop).1
  · exact Option.eq_none_iff_forall_ne_some.2 fun op hop => hnone op (sum?_eq_some.1 hop).1
  · exact Option.eq_none_iff_forall_ne_some.2 fun op hop => hnone op (comparison?_eq_some.1 hop).1

theorem endsExpr_cons {m : Mark} (h : m.kind ∉ continuers) (ws : List Mark) :
    EndsExpr (m :: ws) :=
  endsExpr_of_front fun _ hkind heq => h (Option.some.inj heq ▸ hkind)

theorem endsOperand_operator (op : Operator) (ws : List Mark) :
    EndsOperand (.sign op.kind :: ws) := by
  obtain ⟨hparen, hbracket, hdot⟩ := op.kind_ne
  exact ⟨fun h => hparen (Option.some.inj h), fun h => hbracket (Option.some.inj h),
    fun h => hdot (Option.some.inj h)⟩

theorem endsProduct_operator {op : Operator} (h : op.tier ≠ .product) (ws : List Mark) :
    EndsProduct (.sign op.kind :: ws) :=
  ⟨endsOperand_operator op ws, by cases op <;> first | rfl | exact absurd rfl h⟩

theorem endsSum_operator {op : Operator} (h : op.tier = .comparison) (ws : List Mark) :
    EndsSum (.sign op.kind :: ws) :=
  ⟨endsProduct_operator (by rw [h]; nofun) ws, by cases op <;> first | rfl | cases h⟩

section
variable {α : Type} {first : Parser Expr} {step : Parser (Option α)} {apply : Expr → α → Expr}

def folded (first : Parser Expr) (step : Parser (Option α)) (apply : Expr → α → Expr) :
    Parser Expr := do
  let x ← first
  let xs ← many step
  return xs.foldl apply x

/-- The front of a folded expression is accepted with some steps, if the steps that follow are,
with whatever they make of it. -/
def Folds (top : Nat) (first : Parser Expr) (step : Parser (Option α)) (apply : Expr → α → Expr)
    (d k : Nat) (e : Expr) (ws more : List Mark) : Prop :=
  ∀ v Q, (∀ acc : Expr, acc.bare = e.bare →
      AcceptsMany top step ⟨d + k, more⟩ v fun xs => Q (xs.foldl apply acc)) →
    Accepts top (folded first step apply) ⟨d, ws ++ more⟩ v Q

theorem folds_first
    (h : Accepts top first ⟨d, ws ++ more⟩ ⟨d, more⟩ fun x => x.bare = e.bare) :
    Folds top first step apply d 0 e ws more :=
  fun _ _ hmore => h.bind fun x hx =>
    (accepts_many (hmore x hx)).bind fun _ hxs => .pure hxs

theorem folds_step {lhs : Expr} {P : α → Prop}
    (h : Folds top first step apply d k lhs ws (ws' ++ more))
    (hstep : AcceptsOne top step ⟨d + k, ws' ++ more⟩ ⟨d + (k + 1), more⟩ P)
    (happly : ∀ acc x, acc.bare = lhs.bare → P x → (apply acc x).bare = e.bare) :
    Folds top first step apply d (k + 1) e (ws ++ ws') more := by
  intro v Q hmore
  rw [List.append_assoc]
  refine h v Q fun acc hacc => .more hstep fun x hx => ?_
  exact hmore (apply acc x) (happly acc x hacc hx)

theorem accepts_folded (h : Folds top first step apply d k e ws more)
    (hnone : Accepts top step ⟨d + k, more⟩ ⟨d + k, more⟩ fun o => o = none) :
    Accepts top (keepDepth (folded first step apply)) ⟨d, ws ++ more⟩ ⟨d, more⟩
      fun x => x.bare = e.bare :=
  accepts_keepDepth (h _ _ fun _ hacc => .stop hnone hacc)

end

section
variable {operator? : Option Kind → Option Operator} {operand : Parser Expr} {P : Expr → Prop}

theorem acceptsOne_link {op : Operator} (hop : operator? (some op.kind) = some op) (hd : d < top)
    (hrhs : Accepts top operand ⟨d + 1, ws ++ rest⟩ ⟨d + 1, rest⟩ P) :
    AcceptsOne top (link? operator? operand) ⟨d, .sign op.kind :: (ws ++ rest)⟩ ⟨d + 1, rest⟩
      fun x => x.1 = op ∧ P x.2 := by
  refine ⟨Nat.lt_succ_of_le (by simp), accepts_peek.bind ?_⟩
  rintro _ rfl
  rw [frontKind_cons, Mark.kind, hop]
  refine accepts_advance.bind fun _ _ => (accepts_descend hd).bind fun _ _ => ?_
  exact hrhs.bind fun rhs hP => .pure ⟨_, rfl, rfl, hP⟩

theorem accepts_noLink (h : operator? (frontKind ws) = none) :
    Accepts top (link? operator? operand) ⟨d, ws⟩ ⟨d, ws⟩ fun o => o = none := by
  refine accepts_peek.bind ?_
  rintro _ rfl
  rw [h]
  exact .pure rfl

end

section
variable {expr : Parser Expr} {P : Expr → Prop}

theorem acceptsOne_index (hd : d < top)
    (hposition : Accepts top expr ⟨d + 1, ws ++ .symbol .rightBracket :: rest⟩
      ⟨d + 1, .symbol .rightBracket :: rest⟩ P) :
    AcceptsOne top (suffix? expr) ⟨d, .symbol .leftBracket :: (ws ++ .symbol .rightBracket :: rest)⟩
      ⟨d + 1, rest⟩ fun x => ∃ position stop, x = .index position stop ∧ P position := by
  refine ⟨?_, accepts_at.bind ?_⟩
  · simp only [List.length_cons, List.length_append]
    omega
  rintro _ rfl
  rw [frontKind_cons, Mark.kind, beq_self_eq_true, if_pos rfl]
  refine (accepts_descend hd).bind fun _ _ => accepts_advance.bind fun _ _ => ?_
  refine hposition.bind fun position hP => (accepts_expect rfl).bind fun _ _ => ?_
  exact accepts_last.bind fun stop _ => .pure ⟨_, rfl, position, stop, rfl, hP⟩

theorem acceptsOne_field {name : String} (hd : d < top) :
    AcceptsOne top (suffix? expr) ⟨d, .symbol .dot :: .name name :: rest⟩ ⟨d + 1, rest⟩
      fun x => ∃ n stop, x = .field n stop ∧ n.bare = ⟨name, noSpan⟩ := by
  refine ⟨?_, (accepts_at_other (by simp [Mark.kind])).bind ?_⟩
  · simp only [List.length_cons]
    omega
  rintro _ rfl
  refine accepts_at.bind ?_
  rintro _ rfl
  rw [frontKind_cons, Mark.kind, beq_self_eq_true]
  refine (accepts_descend hd).bind fun _ _ => accepts_advance.bind fun _ _ => ?_
  refine accepts_identifier.bind fun n hn => ?_
  exact accepts_last.bind fun stop _ => .pure ⟨_, rfl, n, stop, rfl, hn⟩

theorem accepts_noSuffix (h : EndsOperand ws) :
    Accepts top (suffix? expr) ⟨d, ws⟩ ⟨d, ws⟩ fun o => o = none := by
  refine (accepts_at_other h.bracket).bind ?_
  rintro _ rfl
  refine (accepts_at_other h.dot).bind ?_
  rintro _ rfl
  exact .pure rfl

end

def link (lhs : Expr) (x : Operator × Expr) : Expr := binary x.1 lhs x.2

/-- The spelling of an expression is accepted in front of anything that ends it. -/
def AcceptsExpr (top n : Nat) (e : Expr) (ws : List Mark) : Prop :=
  ∀ f d rest, nestingLimit ≤ f + d → d + n ≤ top → EndsExpr rest →
    Accepts top (expr f) ⟨d, ws ++ rest⟩ ⟨d, rest⟩ fun x => x.bare = e.bare

/-- The spelling of a sum with some operators is accepted with the operators that follow. -/
def AcceptsSum (top n k : Nat) (e : Expr) (ws : List Mark) : Prop :=
  ∀ f d more, nestingLimit ≤ f + 1 + d → d + n ≤ top → EndsProduct more →
    Folds top (product f) (link? sum? (product f)) link d k e ws more

/-- The spelling of a product with some operators is accepted with the operators that follow. -/
def AcceptsProduct (top n k : Nat) (e : Expr) (ws : List Mark) : Prop :=
  ∀ f d more, nestingLimit ≤ f + 1 + d → d + n ≤ top → EndsOperand more →
    Folds top (factor f) (link? product? (factor f)) link d k e ws more

/-- The spelling of an operand with some suffixes is accepted with the suffixes that follow. -/
def AcceptsOperand (top n k : Nat) (e : Expr) (ws : List Mark) : Prop :=
  ∀ f d more, nestingLimit ≤ f + 1 + d → d + n ≤ top →
    frontKind more ≠ some (.symbol .leftParen) →
    Folds top (nested (atom (expr f) (block f))) (suffix? (expr f)) Suffix.apply d k e ws more

def AcceptsAtom (top n : Nat) (e : Expr) (ws : List Mark) : Prop :=
  ∀ f d rest, nestingLimit ≤ f + 1 + d → d + n ≤ top →
    frontKind rest ≠ some (.symbol .leftParen) →
    Accepts top (nested (atom (expr f) (block f))) ⟨d, ws ++ rest⟩ ⟨d, rest⟩
      fun x => x.bare = e.bare

def AcceptsBlock (top n : Nat) (b : Block) (ws : List Mark) : Prop :=
  ∀ f d rest, nestingLimit ≤ f + d → d + n ≤ top →
    Accepts top (block f) ⟨d, ws ++ rest⟩ ⟨d, rest⟩ fun x => x.bare = b.bare

def AcceptsEntry (top n : Nat) (g : Name × Expr) (ws : List Mark) : Prop :=
  ∀ f d rest, nestingLimit ≤ f + d → d + n ≤ top → EndsExpr rest →
    Accepts top (recordField (expr f)) ⟨d, ws ++ rest⟩ ⟨d, rest⟩
      fun x => bareEntry x = bareEntry g

/-- A sum is accepted in front of what ends it. -/
theorem AcceptsSum.chain (h : AcceptsSum top n k e ws) (hf : nestingLimit ≤ f + 1 + d)
    (hd : d + n ≤ top) (hrest : EndsSum rest) :
    Accepts top (sum f) ⟨d, ws ++ rest⟩ ⟨d, rest⟩ fun x => x.bare = e.bare :=
  accepts_folded (h f d rest hf hd hrest.toEndsProduct) (accepts_noLink hrest.sum)

theorem AcceptsProduct.chain (h : AcceptsProduct top n k e ws) (hf : nestingLimit ≤ f + 1 + d)
    (hd : d + n ≤ top) (hrest : EndsProduct rest) :
    Accepts top (product f) ⟨d, ws ++ rest⟩ ⟨d, rest⟩ fun x => x.bare = e.bare :=
  accepts_folded (h f d rest hf hd hrest.toEndsOperand) (accepts_noLink hrest.product)

theorem AcceptsOperand.postfixed (h : AcceptsOperand top n k e ws) (hf : nestingLimit ≤ f + 1 + d)
    (hd : d + n ≤ top) (hrest : EndsOperand rest) :
    Accepts top (factor f) ⟨d, ws ++ rest⟩ ⟨d, rest⟩ fun x => x.bare = e.bare :=
  accepts_folded (h f d rest hf hd hrest.paren) (accepts_noSuffix hrest)

/-- No level is left for an expression only if one more is asked for than there is. -/
theorem acceptsExpr_of_pos (hn : 0 < n)
    (h : ∀ f d rest, nestingLimit ≤ f + 1 + d → d + n ≤ top → EndsExpr rest →
      Accepts top (comparison (nested (atom (expr f) (block f))) (expr f)) ⟨d, ws ++ rest⟩
        ⟨d, rest⟩ fun x => x.bare = e.bare) : AcceptsExpr top n e ws := by
  intro f d rest hf hd hrest
  cases f with
  | zero => exact .tooDeep (by omega)
  | succ f => exact h f d rest hf hd hrest

theorem AcceptsSum.expr (hn : 0 < n) (h : AcceptsSum top n k e ws) : AcceptsExpr top n e ws := by
  refine acceptsExpr_of_pos hn fun f d rest hf hd hrest => ?_
  refine (h.chain hf hd hrest.toEndsSum).bind fun x hx => accepts_peek.bind ?_
  rintro _ rfl
  rw [hrest.comparison]
  exact .pure hx

section
variable {m k' : Nat} {span : Span} {op : Operator} {lhs rhs base position : Expr}

theorem AcceptsSum.comparison (hn : 0 < n) (hlhs : AcceptsSum top n k lhs ws)
    (hop : op.tier = .comparison) (hrhs : AcceptsSum top n k' rhs ws') :
    AcceptsExpr top n (.binary span op lhs rhs) (ws ++ .sign op.kind :: ws') := by
  refine acceptsExpr_of_pos hn fun f d rest hf hd hrest => ?_
  rw [List.append_assoc, List.cons_append]
  refine (hlhs.chain hf hd (endsSum_operator hop _)).bind fun x hx => accepts_peek.bind ?_
  rintro _ rfl
  rw [frontKind_cons, Mark.kind, comparison?_eq_some.2 ⟨rfl, hop⟩]
  refine accepts_advance.bind fun _ _ => (hrhs.chain hf hd hrest.toEndsSum).bind fun y hy => ?_
  exact .pure (by rw [binary, Expr.bare, Expr.bare, hx, hy])

/-- What a link makes of its operands. -/
theorem bare_link {acc : Expr} {x : Operator × Expr} (hacc : acc.bare = lhs.bare)
    (hx : x.1 = op ∧ x.2.bare = rhs.bare) :
    (link acc x).bare = (Expr.binary span op lhs rhs).bare := by
  obtain ⟨rfl, hrhs⟩ := hx
  rw [link, binary, Expr.bare, Expr.bare, hacc, hrhs]

theorem AcceptsProduct.sumAlone (h : AcceptsProduct top n k e ws) : AcceptsSum top n 0 e ws :=
  fun _ _ _ hf hd hmore => folds_first (h.chain hf hd hmore)

theorem AcceptsProduct.sum (hlhs : AcceptsSum top n k lhs ws) (hop : op.tier = .sum)
    (hrhs : AcceptsProduct top m k' rhs ws') (hm : 0 < m) (hlevel : m + (k + 1) = n) :
    AcceptsSum top n (k + 1) (.binary span op lhs rhs) (ws ++ .sign op.kind :: ws') := by
  intro f d more hf hd hmore
  have hends : EndsProduct (.sign op.kind :: (ws' ++ more)) :=
    endsProduct_operator (by rw [hop]; nofun) _
  refine folds_step (hlhs f d _ hf hd hends) ?_ fun acc x => bare_link
  exact acceptsOne_link (sum?_eq_some.2 ⟨rfl, hop⟩) (by omega)
    (hrhs.chain (by omega) (by omega) hmore)

theorem AcceptsOperand.productAlone (h : AcceptsOperand top n k e ws) :
    AcceptsProduct top n 0 e ws :=
  fun _ _ _ hf hd hmore => folds_first (h.postfixed hf hd hmore)

theorem AcceptsOperand.product (hlhs : AcceptsProduct top n k lhs ws) (hop : op.tier = .product)
    (hrhs : AcceptsOperand top m k' rhs ws') (hm : 0 < m) (hlevel : m + (k + 1) = n) :
    AcceptsProduct top n (k + 1) (.binary span op lhs rhs) (ws ++ .sign op.kind :: ws') := by
  intro f d more hf hd hmore
  refine folds_step (hlhs f d _ hf hd (endsOperand_operator op _)) ?_ fun acc x => bare_link
  exact acceptsOne_link (product?_eq_some.2 ⟨rfl, hop⟩) (by omega)
    (hrhs.postfixed (by omega) (by omega) hmore)

theorem AcceptsAtom.operand (h : AcceptsAtom top n e ws) : AcceptsOperand top n 0 e ws :=
  fun f d more hf hd hmore => folds_first (h f d more hf hd hmore)

theorem AcceptsExpr.index (hbase : AcceptsOperand top n k base ws)
    (hposition : AcceptsExpr top m position ws') (hm : 0 < m) (hlevel : m + (k + 1) = n) :
    AcceptsOperand top n (k + 1) (.index span base position)
      (ws ++ .symbol .leftBracket :: (ws' ++ [.symbol .rightBracket])) := by
  intro f d more hf hd hmore
  have hstep := acceptsOne_index (d := d + k) (by omega)
    (hposition f (d + k + 1) (.symbol .rightBracket :: more) (by omega) (by omega)
      (endsExpr_cons (by decide) _))
  have hmarks : .symbol .leftBracket :: (ws' ++ .symbol .rightBracket :: more) =
      (.symbol .leftBracket :: (ws' ++ [.symbol .rightBracket])) ++ more := by simp
  rw [hmarks] at hstep
  refine folds_step (hbase f d _ hf hd nofun) hstep ?_
  rintro acc x hacc ⟨position, stop, rfl, hposition⟩
  rw [Suffix.apply, Expr.bare, Expr.bare, hacc, hposition]

theorem AcceptsOperand.field {name : Name} (hbase : AcceptsOperand top n k base ws)
    (hlevel : m + (k + 1) = n) :
    AcceptsOperand top n (k + 1) (.field span base name)
      (ws ++ [.symbol .dot, .name name.text]) := by
  intro f d more hf hd hmore
  refine folds_step (hbase f d _ hf hd nofun) (acceptsOne_field (by omega)) ?_
  rintro acc x hacc ⟨n, stop, rfl, hn⟩
  rw [Suffix.apply, Expr.bare, Expr.bare, hacc, hn]
  rfl

end

end TextGrammar.Source.Parser
