import TextGrammar.Proofs.Spans.Passing
import TextGrammar.Proofs.Syntax.Expressions

/-! # Spans of parsed expressions

A parser of expressions passes the tokens of what it yields. An atom starts where the cursor is and
ends with the token read last; what operators and suffixes make of it takes its span from its
operands. -/

namespace TextGrammar.Source

theorem Expr.span_withSpan (s : Span) (e : Expr) : (e.withSpan s).span = s := by
  cases e <;> rfl

namespace Parser
open Token (Kind)
open Piece
variable {c d : Cursor} {expr : Parser Expr} {block : Parser Block}

abbrev PassesExpr (expr : Parser Expr) : Prop := Passes expr fun e ps => ps = exprPieces e

abbrev PassesBlock (block : Parser Block) : Prop := Passes block fun b ps => ps = blockPieces b

theorem recordField_passed (hexpr : PassesExpr expr) :
    Passes (recordField expr) fun f ps => ps = entryPieces f := by
  intro c f d h
  obtain ⟨name, c₁, hname, h⟩ := yields_bind.1 h
  obtain ⟨t, c₂, ht, h⟩ := yields_bind.1 h
  obtain ⟨e, c₃, he, h⟩ := yields_bind.1 h
  obtain ⟨rfl, rfl⟩ := yields_pure.1 h
  obtain ⟨_, rfl, hvalue⟩ := hexpr he
  have hcolon := expect_passed Mark.eq_symbol ht
  exact ⟨_, rfl, (identifier_named hname).cons (hcolon.cons hvalue)⟩

/-- A number that is read from the next token, behind a sign or not. -/
theorem number_passed {b : Cursor} (negative : Bool) {t : Token} {e : Expr}
    (hsign : Passed b (signIf negative (.symbol .minus)) c)
    (ht : Yields (expect .number) c t d) {f : Cursor}
    (h : Yields (number t negative (b.here.join t.span)) d e f) :
    Passed b (exprPieces e) f := by
  have hspan := number_span h
  obtain ⟨rfl, hnumeral⟩ := number_yields h
  obtain ⟨hkind, hcrossed⟩ := expect_crossed ht
  have hmark : t.mark = .number t.text := by simp only [Token.mark, hkind]
  have hall := hsign.trans (.sign hcrossed)
  rw [hmark] at hall
  refine hall.spanned (.number hnumeral) ?_
  rw [hcrossed.last]
  exact hspan

/-- Braces are a record or a block. -/
theorem braces_passed (hexpr : PassesExpr expr) (hblock : PassesBlock block) {e : Expr}
    (hfront : frontKind c.marks = some (.symbol .leftBrace)) (h : Yields (do
      if ← startsRecord then
        advance
        let fields ← listUntil (.symbol .rightBrace) (recordField expr)
        return Expr.record (← spanFrom c.here) fields
      else
        let body ← block
        return Expr.block (← spanFrom c.here) body) c e d) :
    Passed c (exprPieces e) d := by
  obtain ⟨b, c₁, hb, h⟩ := yields_bind.1 h
  obtain ⟨rfl, -⟩ := startsRecord_yields hb
  cases b with
  | true =>
    obtain ⟨u, c₂, hu, h⟩ := yields_bind.1 h
    obtain ⟨fields, c₃, hfields, h⟩ := yields_bind.1 h
    obtain ⟨rfl, rfl⟩ := spanned_place h
    have hopen := advance_passed Mark.eq_symbol hu hfront
    obtain ⟨ps, hlaid, hpassed⟩ := listUntil_passed (recordField_passed hexpr) hfields
    exact (hopen.cons hpassed).spanned (.record hlaid) rfl
  | false =>
    obtain ⟨body, c₂, hbody, h⟩ := yields_bind.1 h
    obtain ⟨rfl, rfl⟩ := spanned_place h
    obtain ⟨_, rfl, hpassed⟩ := hblock hbody
    exact hpassed.spanned .block rfl

theorem atom_passed (hexpr : PassesExpr expr) (hblock : PassesBlock block) {e : Expr}
    (h : Yields (atom expr block) c e d) : Passed c (exprPieces e) d := by
  obtain ⟨start, c₁, hstart, h⟩ := yields_bind.1 h
  obtain ⟨rfl, rfl⟩ := here_place hstart
  obtain ⟨k, c₂, hk, h⟩ := yields_bind.1 h
  obtain ⟨rfl, hfront⟩ := peek_yields hk
  split at h
  case h_1 =>
    obtain ⟨t, c₃, ht, h⟩ := yields_bind.1 h
    exact number_passed false (.refl _) ht h
  case h_2 =>
    obtain ⟨s, c₃, hs, h⟩ := yields_bind.1 h
    obtain ⟨rfl, rfl⟩ := spanned_place h
    exact (string_passed hs).1.spanned .str rfl
  case h_3 =>
    obtain ⟨u, c₃, hu, h⟩ := yields_bind.1 h
    obtain ⟨rfl, rfl⟩ := spanned_place h
    exact (advance_passed Mark.eq_keyword hu hfront).spanned .true rfl
  case h_4 =>
    obtain ⟨u, c₃, hu, h⟩ := yields_bind.1 h
    obtain ⟨rfl, rfl⟩ := spanned_place h
    exact (advance_passed Mark.eq_keyword hu hfront).spanned .false rfl
  case h_5 =>
    obtain ⟨u, c₃, hu, h⟩ := yields_bind.1 h
    obtain ⟨rfl, rfl⟩ := spanned_place h
    exact (advance_passed Mark.eq_keyword hu hfront).spanned .null rfl
  case h_6 =>
    obtain ⟨name, c₃, hname, h⟩ := yields_bind.1 h
    obtain ⟨b, c₄, hb, h⟩ := yields_bind.1 h
    have hparen := accept_passed Mark.eq_symbol hb
    cases b with
    | true =>
      obtain ⟨es, c₅, hes, h⟩ := yields_bind.1 h
      obtain ⟨rfl, rfl⟩ := spanned_place h
      obtain ⟨ps, hlaid, hpassed⟩ := listUntil_passed hexpr hes
      exact ((identifier_named hname).cons (hparen.cons hpassed)).spanned (.call hlaid) rfl
    | false =>
      obtain ⟨rfl, rfl⟩ := spanned_place h
      exact ((identifier_passed hname).1.trans hparen).spanned .exprName rfl
  case h_7 =>
    obtain ⟨u, c₃, hu, h⟩ := yields_bind.1 h
    obtain ⟨inner, c₄, hinner, h⟩ := yields_bind.1 h
    obtain ⟨t, c₅, ht, h⟩ := yields_bind.1 h
    obtain ⟨rfl, rfl⟩ := spanned_place h
    have hopen := advance_passed Mark.eq_symbol hu hfront
    obtain ⟨_, rfl, hpassed⟩ := hexpr hinner
    have hclose := expect_passed Mark.eq_symbol ht
    exact (hopen.cons (hpassed.trans hclose)).enclosed (fun _ => .parens)
      (inner.span_withSpan _)
  case h_8 =>
    obtain ⟨u, c₃, hu, h⟩ := yields_bind.1 h
    obtain ⟨es, c₄, hes, h⟩ := yields_bind.1 h
    obtain ⟨rfl, rfl⟩ := spanned_place h
    have hopen := advance_passed Mark.eq_symbol hu hfront
    obtain ⟨ps, hlaid, hpassed⟩ := listUntil_passed hexpr hes
    exact (hopen.cons hpassed).spanned (.list hlaid) rfl
  case h_9 => exact braces_passed hexpr hblock hfront h
  case h_10 =>
    obtain ⟨k, c₃, hk, h⟩ := yields_bind.1 h
    obtain ⟨rfl, -⟩ := peekAt_yields hk
    split at h
    · obtain ⟨u, c₄, hu, h⟩ := yields_bind.1 h
      obtain ⟨t, c₅, ht, h⟩ := yields_bind.1 h
      exact number_passed true (advance_passed Mark.eq_symbol hu hfront) ht h
    · cases h
  case h_11 => cases h

def PassesFold {α : Type} (step : Parser (Option α)) (f : Expr → α → Expr) : Prop :=
  ∀ ⦃c o d⦄, Yields step c o d → (o = none ∧ Passed c [] d) ∨
    ∃ x ps, o = some x ∧ ps ≠ [] ∧ Passed c ps d ∧
      ∀ ⦃b e⦄, Passed b (exprPieces e) c → Passed b (exprPieces (f e x)) d

theorem PassesFold.repeated {α : Type} {step : Parser (Option α)} {f : Expr → α → Expr}
    (hstep : PassesFold step f) {xs : List α} (h : Yields (many step) c xs d) {b : Cursor}
    {e : Expr} (hb : Passed b (exprPieces e) c) : Passed b (exprPieces (xs.foldl f e)) d := by
  have hshortens : Shortens step := by
    intro c x d h
    obtain ⟨⟨⟩, -⟩ | ⟨_, ps, -, hne, hpassed, -⟩ := hstep h
    exact hpassed.length_lt hne
  have hrounds := many_yields hshortens h
  clear h
  induction hrounds generalizing e with
  | stop h =>
    obtain ⟨-, hpassed⟩ | ⟨_, _, ⟨⟩, -⟩ := hstep h
    exact hb.trans hpassed
  | more h _ ih =>
    obtain ⟨⟨⟩, -⟩ | ⟨x, _, ⟨⟩, -, -, hnext⟩ := hstep h
    exact ih (hnext hb)

theorem binary_passed {b : Cursor} {op : Operator} {lhs rhs : Expr}
    (hlhs : Passed b (exprPieces lhs) c)
    (hrhs : Passed c [sign (.sign op.kind), part (.expr rhs)] d) :
    Passed b (exprPieces (binary op lhs rhs)) d := by
  have hall : Passed b (part (.expr lhs) :: ([sign (.sign op.kind)] ++ [part (.expr rhs)])) d :=
    hlhs.trans hrhs
  exact hall.joined .binary rfl

section
variable {operator? : Option Kind → Option Operator} {operand : Parser Expr}

theorem link_passed (hop : ∀ ⦃k op⦄, operator? k = some op → k = some op.kind)
    (hoperand : PassesExpr operand) :
    PassesFold (link? operator? operand) fun lhs x => binary x.1 lhs x.2 := by
  intro c o d h
  obtain ⟨k, c₁, hk, h⟩ := yields_bind.1 h
  obtain ⟨rfl, hfront⟩ := peek_yields hk
  split at h
  · rename_i op hoperator
    obtain ⟨u, c₂, hu, h⟩ := yields_bind.1 h
    obtain ⟨u', c₃, hu', h⟩ := yields_bind.1 h
    obtain ⟨rhs, c₄, hrhs, h⟩ := yields_bind.1 h
    obtain ⟨rfl, rfl⟩ := yields_pure.1 h
    have hsign := advance_passed Mark.eq_operator hu (hfront.trans (hop hoperator))
    obtain ⟨_, rfl, hpassed⟩ := hoperand hrhs
    have hall := hsign.trans ((descend_passed hu').trans hpassed)
    exact .inr ⟨_, _, rfl, by simp, hall, fun b e hb => binary_passed hb hall⟩
  · obtain ⟨rfl, rfl⟩ := yields_pure.1 h
    exact .inl ⟨rfl, .refl _⟩

/-- A chain passes its operands with the operators between them. -/
theorem chain_passed (hop : ∀ ⦃k op⦄, operator? k = some op → k = some op.kind)
    (hoperand : PassesExpr operand) : PassesExpr (chain operator? operand) := by
  intro c e d h
  obtain ⟨c₁, h, hend⟩ := keepDepth_passed h
  obtain ⟨first, c₂, hx, h⟩ := yields_bind.1 h
  obtain ⟨links, c₃, hxs, h⟩ := yields_bind.1 h
  obtain ⟨rfl, rfl⟩ := yields_pure.1 h
  obtain ⟨_, rfl, hfirst⟩ := hoperand hx
  exact ⟨_, rfl, ((link_passed hop hoperand).repeated hxs hfirst).trans hend⟩

end

theorem suffix_passed (hexpr : PassesExpr expr) : PassesFold (suffix? expr) Suffix.apply := by
  intro c o d h
  obtain ⟨b, c₁, hb, h⟩ := yields_bind.1 h
  obtain ⟨rfl, rfl⟩ := at_yields hb
  split at h
  · rename_i hfront
    obtain ⟨u, c₂, hu, h⟩ := yields_bind.1 h
    obtain ⟨hmarks, -⟩ := descend_yields hu
    obtain ⟨u', c₃, hu', h⟩ := yields_bind.1 h
    obtain ⟨position, c₄, hposition, h⟩ := yields_bind.1 h
    obtain ⟨t, c₅, ht, h⟩ := yields_bind.1 h
    obtain ⟨stop, c₆, hstop, h⟩ := yields_bind.1 h
    obtain ⟨rfl, rfl⟩ := last_place hstop
    obtain ⟨rfl, rfl⟩ := yields_pure.1 h
    have hopen := advance_passed Mark.eq_symbol hu' (by rw [hmarks]; exact eq_of_beq hfront)
    obtain ⟨_, rfl, hpassed⟩ := hexpr hposition
    have hall := (descend_passed hu).trans
      (hopen.trans (hpassed.trans (expect_passed Mark.eq_symbol ht)))
    exact .inr ⟨_, _, rfl, by simp, hall, fun b e hb => (hb.trans hall).suffixed .index rfl⟩
  · obtain ⟨b, c₂, hb, h⟩ := yields_bind.1 h
    obtain ⟨rfl, rfl⟩ := at_yields hb
    split at h
    · rename_i hfront
      obtain ⟨u, c₂, hu, h⟩ := yields_bind.1 h
      obtain ⟨hmarks, -⟩ := descend_yields hu
      obtain ⟨u', c₃, hu', h⟩ := yields_bind.1 h
      obtain ⟨name, c₄, hname, h⟩ := yields_bind.1 h
      obtain ⟨stop, c₅, hstop, h⟩ := yields_bind.1 h
      obtain ⟨rfl, rfl⟩ := last_place hstop
      obtain ⟨rfl, rfl⟩ := yields_pure.1 h
      have hdot := advance_passed Mark.eq_symbol hu' (by rw [hmarks]; exact eq_of_beq hfront)
      have hall := (descend_passed hu).trans (hdot.trans (identifier_named hname))
      exact .inr ⟨_, _, rfl, by simp, hall, fun b e hb => (hb.trans hall).suffixed .field rfl⟩
    · obtain ⟨rfl, rfl⟩ := yields_pure.1 h
      exact .inl ⟨rfl, .refl _⟩

theorem postfixed_passed {atom : Parser Expr} (hatom : PassesExpr atom)
    (hexpr : PassesExpr expr) : PassesExpr (postfixed atom expr) := by
  intro c e d h
  obtain ⟨c₁, h, hend⟩ := keepDepth_passed h
  obtain ⟨first, c₂, hx, h⟩ := yields_bind.1 h
  obtain ⟨suffixes, c₃, hxs, h⟩ := yields_bind.1 h
  obtain ⟨rfl, rfl⟩ := yields_pure.1 h
  obtain ⟨_, rfl, hfirst⟩ := hatom hx
  exact ⟨_, rfl, ((suffix_passed hexpr).repeated hxs hfirst).trans hend⟩

/-- A comparison passes two sums, and any other expression one. -/
theorem comparison_passed {atom : Parser Expr} (hatom : PassesExpr atom)
    (hexpr : PassesExpr expr) : PassesExpr (comparison atom expr) := by
  have hproduct := chain_passed (fun _ _ h => (product?_eq_some.1 h).1)
    (postfixed_passed hatom hexpr)
  have hsum := chain_passed (fun _ _ h => (sum?_eq_some.1 h).1) hproduct
  intro c e d h
  obtain ⟨lhs, c₁, hlhs, h⟩ := yields_bind.1 h
  obtain ⟨_, rfl, hleft⟩ := hsum hlhs
  obtain ⟨kind, c₂, hk, h⟩ := yields_bind.1 h
  obtain ⟨rfl, hfront⟩ := peek_yields hk
  split at h
  · rename_i op hop
    obtain ⟨u, c₃, hu, h⟩ := yields_bind.1 h
    obtain ⟨rhs, c₄, hrhs, h⟩ := yields_bind.1 h
    obtain ⟨rfl, rfl⟩ := yields_pure.1 h
    have hsign := advance_passed Mark.eq_operator hu (hfront.trans (comparison?_eq_some.1 hop).1)
    obtain ⟨_, rfl, hright⟩ := hsum hrhs
    exact ⟨_, rfl, binary_passed hleft (hsign.trans hright)⟩
  · obtain ⟨rfl, rfl⟩ := yields_pure.1 h
    exact ⟨_, rfl, hleft⟩

end Parser

end TextGrammar.Source
