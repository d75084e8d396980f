import Mathlib.Logic.Function.Iterate
import TextGrammar.Proofs.Source.Calls
import TextGrammar.Proofs.Syntax.Taking

/-! # The recursion of the parser

The parsers of expressions, blocks and patterns are given level by level: how deep they are nested
is counted down. But no call ever meets the last level. The levels that the nesting limit leaves
are enough, and so are two for each token that is left, since a token is read between two calls or
at least between every other two. So the parsers are the only ones that call themselves. -/

namespace TextGrammar.Source

def Advances {α : Type} (p : Parser α) : Prop :=
  ∀ ⦃c x d⦄, Yields p c x d → d.rest.length < c.rest.length ∧ c.depth ≤ d.depth

section
variable {α : Type} {c : Cursor} {g : Nat} {p q : Parser α}

theorem Advances.move (hq : Advances q) (h : ∀ d, Reached c 0 g d → p.run d = q.run d) :
    Move c g p q where
  same d hd := h d hd
  reaches d x e hd hx := by
    obtain ⟨hrest, hdepth⟩ := hq hx
    exact ⟨Nat.le_trans hrest hd.read, Nat.le_trans hd.deeper hdepth⟩

theorem Advances.agree (hq : Advances q) (h : ∀ d, Reached c 1 g d → p.run d = q.run d) :
    Agree c 1 g p q where
  same d hd := h d hd
  reaches d x e hd hx := by
    obtain ⟨hrest, hdepth⟩ := hq hx
    exact ⟨Nat.le_trans (Nat.add_le_add_right (Nat.le_of_lt hrest) 1) hd.read,
      Nat.le_trans hd.deeper hdepth⟩

theorem Cursor.reached_self (c : Cursor) : Reached c 0 0 c := ⟨Nat.le_refl _, Nat.le_refl _⟩

theorem Move.advances (h : ∀ c, Move c 0 p p) : Advances p := fun c _ _ hx =>
  have hreached := (h c).reaches c.reached_self hx
  ⟨hreached.read, hreached.deeper⟩

theorem Reached.levels_lt {k : Nat} {d : Cursor} (h : Reached c k 1 d)
    (hc : c.depth < nestingLimit) : d.levels < c.levels := by
  have hdeeper := h.deeper
  simp only [Cursor.levels]
  omega

end

/-- Parsers of expressions, blocks and single patterns. -/
structure Parsers where
  expr : Parser Expr
  block : Parser Block
  unary : Parser Pattern

namespace Parsers
open TextGrammar.Source.Parser
variable {p q : Parsers} {c : Cursor}

/-- The parsers that call some parsers for the parts of what they read. -/
def callers (p : Parsers) : Parsers where
  expr := comparison (nested (atom p.expr p.block)) p.expr
  block := nested (blockBody p.expr p.block)
  unary := nested (unaryBody p.unary p.expr)

def atLevel (n : Nat) : Parsers := ⟨Parser.expr n, Parser.block n, Parser.unary n⟩

theorem callers_atLevel (n : Nat) : (atLevel n).callers = atLevel (n + 1) := rfl

structure SameAt (p q : Parsers) (c : Cursor) : Prop where
  expr : p.expr.run c = q.expr.run c
  block : p.block.run c = q.block.run c
  unary : p.unary.run c = q.unary.run c

theorem SameAt.trans {r : Parsers} (h : p.SameAt q c) (h' : q.SameAt r c) : p.SameAt r c :=
  ⟨h.expr.trans h'.expr, h.block.trans h'.block, h.unary.trans h'.unary⟩

theorem SameAt.symm (h : p.SameAt q c) : q.SameAt p c := ⟨h.expr.symm, h.block.symm, h.unary.symm⟩

theorem eq_of_sameAt (h : ∀ c, p.SameAt q c) : p = q := by
  obtain ⟨expr, block, unary⟩ := p
  obtain ⟨expr', block', unary'⟩ := q
  obtain rfl : expr = expr' := funext fun c => (h c).expr
  obtain rfl : block = block' := funext fun c => (h c).block
  obtain rfl : unary = unary' := funext fun c => (h c).unary
  rfl

structure Advance (p : Parsers) : Prop where
  expr : Advances p.expr
  block : Advances p.block
  unary : Advances p.unary

section
variable (hq : q.Advance) (h : ∀ d, Reached c 1 1 d → p.SameAt q d)
include hq h

/-- What blocks do depends on what is called for behind a token. -/
theorem callers_block : p.callers.block.run c = q.callers.block.run c :=
  (alike_nested (move_blockBody (hq.expr.agree fun d hd => (h d hd).expr)
    (hq.block.agree fun d hd => (h d hd).block))).same c.reached_self

theorem callers_unary : p.callers.unary.run c = q.callers.unary.run c :=
  (alike_nested (move_unaryBody (hq.unary.agree fun d hd => (h d hd).unary)
    (hq.expr.agree fun d hd => (h d hd).expr))).same c.reached_self

/-- An expression may also be a block. -/
theorem callers_expr (hblock : ∀ d, Reached c 0 1 d → p.block.run d = q.block.run d) :
    p.callers.expr.run c = q.callers.expr.run c :=
  (move_comparison (alike_nested (move_atom (hq.expr.agree fun d hd => (h d hd).expr)
    (hq.block.move hblock))) (hq.expr.agree fun d hd => (h d hd).expr)).same c.reached_self

theorem callers_sameAt (hblock : ∀ d, Reached c 0 1 d → p.block.run d = q.block.run d) :
    p.callers.SameAt q.callers c :=
  ⟨callers_expr hq h hblock, callers_block hq h, callers_unary hq h⟩

end

theorem Advance.callers (h : p.Advance) : p.callers.Advance where
  expr := Move.advances fun _ =>
    move_comparison (alike_nested (move_atom (h.expr.agree fun _ _ => rfl)
      (h.block.move fun _ _ => rfl))) (h.expr.agree fun _ _ => rfl)
  block := Move.advances fun _ =>
    alike_nested (move_blockBody (h.expr.agree fun _ _ => rfl) (h.block.agree fun _ _ => rfl))
  unary := Move.advances fun _ =>
    alike_nested (move_unaryBody (h.unary.agree fun _ _ => rfl) (h.expr.agree fun _ _ => rfl))

theorem advance_atLevel (n : Nat) : (atLevel n).Advance := by
  induction n with
  | zero => exact ⟨nofun, nofun, nofun⟩
  | succ n ih => exact ih.callers

/-- Where the limit has been reached, nothing is called for. -/
theorem callers_tooDeep (p : Parsers) (hc : ¬c.depth < nestingLimit) :
    p.callers.SameAt (atLevel 0) c where
  expr := comparison_faults (nested_tooDeep hc)
  block := nested_tooDeep hc
  unary := nested_tooDeep hc

/-- Two calls below a parser, all calls are made behind a token that it has read. -/
theorem callers_callers_sameAt (hq : q.Advance) (h : ∀ d, Reached c 1 1 d → p.SameAt q d) :
    p.callers.callers.SameAt q.callers.callers c := by
  have hblock : ∀ d, Reached c 0 1 d → p.callers.block.run d = q.callers.block.run d :=
    fun d hd => callers_block hq fun e he => h e (hd.trans he).shallower
  refine callers_sameAt hq.callers (fun d hd => callers_sameAt hq ?_ ?_) hblock
  · exact fun e he => h e ((hd.trans he).mono (Nat.le_succ _)).shallower
  · exact fun e he => (h e (hd.trans he).shallower).block

/-- One level more makes no difference where the limit leaves no more levels. -/
theorem atLevel_succ {n : Nat} (h : c.levels ≤ n) : (atLevel (n + 1)).SameAt (atLevel n) c := by
  induction n generalizing c with
  | zero =>
    have hc : ¬c.depth < nestingLimit := by simp only [Cursor.levels] at h; omega
    rw [← callers_atLevel]
    exact callers_tooDeep _ hc
  | succ n ih =>
    rw [← callers_atLevel (n + 1), ← callers_atLevel n]
    by_cases hc : c.depth < nestingLimit
    · have hcalled {k : Nat} : ∀ d, Reached c k 1 d → (atLevel n).callers.SameAt (atLevel n) d :=
        fun d hd => ih (Nat.le_of_lt_succ (Nat.lt_of_lt_of_le (hd.levels_lt hc) h))
      exact callers_sameAt (advance_atLevel n) hcalled fun d hd => (hcalled d hd).block
    · exact (callers_tooDeep _ hc).trans (callers_tooDeep _ hc).symm

/-- The parsers of the nesting limit call themselves. -/
theorem callers_nestingLimit : (atLevel nestingLimit).callers = atLevel nestingLimit :=
  eq_of_sameAt fun _ => atLevel_succ (Nat.sub_le _ _)

/-- However the recursion ends, it is not called to its end where it goes on for more levels than
the limit leaves, or for two levels for each token that is left. -/
theorem iterate_callers (p : Parsers) (n : Nat) :
    (c.levels < n ∨ 2 * c.rest.length + 1 ≤ n →
      (callers^[n] p).block.run c = (atLevel nestingLimit).block.run c ∧
      (callers^[n] p).unary.run c = (atLevel nestingLimit).unary.run c) ∧
    (c.levels < n ∨ 2 * c.rest.length + 2 ≤ n →
      (callers^[n] p).SameAt (atLevel nestingLimit) c) := by
  induction n generalizing c with
  | zero => exact ⟨fun h => absurd h (by omega), fun h => absurd h (by omega)⟩
  | succ n ih =>
    rw [Function.iterate_succ_apply', ← callers_nestingLimit]
    by_cases hc : c.depth < nestingLimit
    · have hadvance := advance_atLevel nestingLimit
      have hbehind (h : c.levels < n + 1 ∨ 2 * c.rest.length + 1 ≤ n + 1) :
          ∀ d, Reached c 1 1 d → (callers^[n] p).SameAt (atLevel nestingLimit) d := by
        intro d hd
        have hread := hd.read
        have hlevels := hd.levels_lt hc
        exact ih.2 (by omega)
      constructor
      · intro h
        exact ⟨callers_block hadvance (hbehind h), callers_unary hadvance (hbehind h)⟩
      · intro h
        refine callers_sameAt hadvance (hbehind (by omega)) fun d hd => (ih.1 ?_).1
        have hread := hd.read
        have hlevels := hd.levels_lt hc
        omega
    · have hdeep := (callers_tooDeep (callers^[n] p) hc).trans
        (callers_tooDeep (atLevel nestingLimit) hc).symm
      exact ⟨fun _ => ⟨hdeep.block, hdeep.unary⟩, fun _ => hdeep⟩

/-- No other parsers call themselves. -/
theorem callers_eq_self_iff : p.callers = p ↔ p = atLevel nestingLimit := by
  constructor
  · intro hp
    refine eq_of_sameAt fun c => ?_
    have hsame := (iterate_callers p (2 * c.rest.length + 2)).2 (.inr (Nat.le_refl _))
    rwa [Function.iterate_fixed hp] at hsame
  · rintro rfl
    exact callers_nestingLimit

end Parsers

end TextGrammar.Source
