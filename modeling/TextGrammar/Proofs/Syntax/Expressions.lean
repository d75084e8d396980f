import TextGrammar.Proofs.Syntax.Taking

/-! # Parsed expressions are spelled by their tokens

Whatever a parser of expressions, statements or blocks yields is spelled by the marks that it has
taken, with the levels that the nesting limit has left for it. -/

namespace TextGrammar.Source.Parser
open Token (Kind)

/-- The operands of products, with a number of levels of nesting left for what they contain. -/
def factor (n : Nat) : Parser Expr := postfixed (nested (atom (expr n) (block n))) (expr n)

def product (n : Nat) : Parser Expr := chain product? (factor n)

def sum (n : Nat) : Parser Expr := chain sum? (product n)

variable {c d : Cursor} {expr : Parser Expr} {block : Parser Block}

abbrev TakesExpr (expr : Parser Expr) : Prop := Takes expr fun n e ws => Spells n (.expr e) ws

abbrev TakesBlock (block : Parser Block) : Prop := Takes block fun n b ws => Spells n (.block b) ws

/-- The end of a parser that gives what it has read the span of its tokens. -/
theorem spanned_yields {α : Type} {start : Span} {f : Span → α} {x : α} (h : Yields (do
    return f (← spanFrom start)) c x d) : c = d ∧ ∃ span, x = f span := by
  obtain ⟨span, e, hspan, h⟩ := yields_bind.1 h
  obtain rfl := spanFrom_yields hspan
  obtain ⟨rfl, rfl⟩ := yields_pure.1 h
  exact ⟨rfl, span, rfl⟩

theorem recordField_takes (hexpr : TakesExpr expr) :
    Takes (recordField expr) fun n f ws => Spells n (.entry f) ws := by
  intro c f d h
  obtain ⟨name, c₁, hname, h⟩ := yields_bind.1 h
  obtain ⟨t, c₂, ht, h⟩ := yields_bind.1 h
  obtain ⟨e, c₃, he, h⟩ := yields_bind.1 h
  obtain ⟨rfl, rfl⟩ := yields_pure.1 h
  have hhead := (identifier_yields hname).trans (expect_symbol ht)
  obtain ⟨ws, htook, hspells⟩ := hexpr he
  rw [hhead.levels] at hspells
  exact ⟨_, hhead.trans htook, .entry hspells⟩

theorem startsRecord_yields {b : Bool} (h : Yields startsRecord c b d) :
    c = d ∧ (c.marks[1]?.map Mark.kind = some (.symbol .rightBrace) → b = true) := by
  obtain ⟨first, e, hfirst, h⟩ := yields_bind.1 h
  obtain ⟨rfl, rfl⟩ := peekAt_yields hfirst
  obtain ⟨second, f, hsecond, h⟩ := yields_bind.1 h
  obtain ⟨rfl, rfl⟩ := peekAt_yields hsecond
  obtain ⟨rfl, rfl⟩ := yields_pure.1 h
  refine ⟨rfl, fun hbrace => ?_⟩
  rw [hbrace]
  rfl

/-- The empty block is spelled by two braces. -/
theorem spells_empty {n : Nat} {ws : List Mark} (h : Spells n (.block (.mk [] none)) ws) :
    ws = [.symbol .leftBrace, .symbol .rightBrace] := by
  cases h with
  | body hstmts =>
    cases hstmts
    rfl

/-- Braces are a record or a block that is not empty. -/
theorem braces_yield (hexpr : TakesExpr expr) (hblock : TakesBlock block) {start : Span} {e : Expr}
    (hfront : frontKind c.marks = some (.symbol .leftBrace)) (h : Yields (do
      if ← startsRecord then
        advance
        let fields ← listUntil (.symbol .rightBrace) (recordField expr)
        return Expr.record (← spanFrom start) fields
      else
        let body ← block
        return Expr.block (← spanFrom start) body) c e d) :
    ∃ ws, Took c ws d ∧ Spells (c.levels + 1) (.atom e) ws := by
  obtain ⟨b, c₁, hb, h⟩ := yields_bind.1 h
  obtain ⟨rfl, hrecord⟩ := startsRecord_yields hb
  cases b with
  | true =>
    obtain ⟨u, c₂, hu, h⟩ := yields_bind.1 h
    obtain ⟨fields, c₃, hfields, h⟩ := yields_bind.1 h
    obtain ⟨rfl, span, rfl⟩ := spanned_yields h
    have hopen := advance_symbol hu hfront
    obtain ⟨items, ws, htook, hlength, hitems, hlisted⟩ :=
      listUntil_yields (recordField_takes hexpr) hfields
    rw [hopen.levels] at hitems
    exact ⟨_, hopen.cons htook, .record hlength hitems hlisted⟩
  | false =>
    obtain ⟨body, c₂, hbody, h⟩ := yields_bind.1 h
    obtain ⟨rfl, span, rfl⟩ := spanned_yields h
    obtain ⟨ws, htook, hspells⟩ := hblock hbody
    refine ⟨ws, htook, .blockValue hspells ?_⟩
    rintro rfl
    obtain rfl := spells_empty hspells
    have htrue := hrecord (by rw [htook.marks]; rfl)
    cases htrue

theorem atom_yields (hexpr : TakesExpr expr) (hblock : TakesBlock block) {e : Expr}
    (h : Yields (atom expr block) c e d) :
    ∃ ws, Took c ws d ∧ Spells (c.levels + 1) (.atom e) ws := by
  obtain ⟨start, c₁, hstart, h⟩ := yields_bind.1 h
  obtain rfl := here_yields hstart
  obtain ⟨k, c₂, hk, h⟩ := yields_bind.1 h
  obtain ⟨rfl, hfront⟩ := peek_yields hk
  split at h
  case h_1 =>
    obtain ⟨t, c₃, ht, h⟩ := yields_bind.1 h
    obtain ⟨hkind, htook⟩ := expect_yields ht
    obtain ⟨rfl, hnumeral⟩ := number_yields h
    have hmark : t.mark = .number t.text := by simp only [Token.mark, hkind]
    rw [hmark] at htook
    exact ⟨_, htook, .number hnumeral⟩
  case h_2 =>
    obtain ⟨s, c₃, hs, h⟩ := yields_bind.1 h
    obtain ⟨rfl, span, rfl⟩ := spanned_yields h
    exact ⟨_, string_yields hs, .str⟩
  case h_3 =>
    obtain ⟨u, c₃, hu, h⟩ := yields_bind.1 h
    obtain ⟨rfl, span, rfl⟩ := spanned_yields h
    exact ⟨_, advance_keyword hu hfront, .true⟩
  case h_4 =>
    obtain ⟨u, c₃, hu, h⟩ := yields_bind.1 h
    obtain ⟨rfl, span, rfl⟩ := spanned_yields h
    exact ⟨_, advance_keyword hu hfront, .false⟩
  case h_5 =>
    obtain ⟨u, c₃, hu, h⟩ := yields_bind.1 h
    obtain ⟨rfl, span, rfl⟩ := spanned_yields h
    exact ⟨_, advance_keyword hu hfront, .null⟩
  case h_6 =>
    obtain ⟨name, c₃, hname, h⟩ := yields_bind.1 h
    have hhead := identifier_yields hname
    obtain ⟨b, c₄, hb, h⟩ := yields_bind.1 h
    obtain ⟨rfl, hparen⟩ | ⟨rfl, rfl, -⟩ := accept_symbol hb
    · obtain ⟨es, c₅, hes, h⟩ := yields_bind.1 h
      obtain ⟨rfl, span, rfl⟩ := spanned_yields h
      have hopen := hhead.cons hparen
      obtain ⟨items, ws, htook, hlength, hitems, hlisted⟩ := listUntil_yields hexpr hes
      rw [hopen.levels] at hitems
      exact ⟨_, hopen.trans htook, .call hlength hitems hlisted⟩
    · obtain ⟨rfl, span, rfl⟩ := spanned_yields h
      exact ⟨_, hhead, .name⟩
  case h_7 =>
    obtain ⟨u, c₃, hu, h⟩ := yields_bind.1 h
    have hopen := advance_symbol hu hfront
    obtain ⟨inner, c₄, hinner, h⟩ := yields_bind.1 h
    obtain ⟨t, c₅, ht, h⟩ := yields_bind.1 h
    obtain ⟨rfl, span, rfl⟩ := spanned_yields h
    obtain ⟨ws, htook, hspells⟩ := hexpr hinner
    rw [hopen.levels] at hspells
    exact ⟨_, hopen.cons (htook.trans (expect_symbol ht)), .parens hspells⟩
  case h_8 =>
    obtain ⟨u, c₃, hu, h⟩ := yields_bind.1 h
    have hopen := advance_symbol hu hfront
    obtain ⟨es, c₄, hes, h⟩ := yields_bind.1 h
    obtain ⟨rfl, span, rfl⟩ := spanned_yields h
    obtain ⟨items, ws, htook, hlength, hitems, hlisted⟩ := listUntil_yields hexpr hes
    rw [hopen.levels] at hitems
    exact ⟨_, hopen.cons htook, .list hlength hitems hlisted⟩
  case h_9 => exact braces_yield hexpr hblock hfront h
  case h_10 =>
    obtain ⟨k, c₃, hk, h⟩ := yields_bind.1 h
    obtain ⟨rfl, -⟩ := peekAt_yields hk
    split at h
    · obtain ⟨u, c₄, hu, h⟩ := yields_bind.1 h
      have hminus := advance_symbol hu hfront
      obtain ⟨t, c₅, ht, h⟩ := yields_bind.1 h
      obtain ⟨hkind, htook⟩ := expect_yields ht
      obtain ⟨rfl, hnumeral⟩ := number_yields h
      have hmark : t.mark = .number t.text := by simp only [Token.mark, hkind]
      rw [hmark] at htook
      exact ⟨_, hminus.cons htook, .number hnumeral⟩
    · cases h
  case h_11 => cases h

theorem Mark.eq_operator {m : Mark} {op : Operator} (h : m.kind = op.kind) : m = .sign op.kind := by
  cases op <;> exact Mark.eq_symbol h

theorem product?_eq_some {k : Option Kind} {op : Operator} :
    product? k = some op ↔ k = some op.kind ∧ op.tier = .product := by
  constructor
  · intro h
    unfold product? at h
    split at h <;> cases h
    exact ⟨rfl, rfl⟩
  · rintro ⟨rfl, h⟩
    cases op <;> cases h
    rfl

theorem sum?_eq_some {k : Option Kind} {op : Operator} :
    sum? k = some op ↔ k = some op.kind ∧ op.tier = .sum := by
  constructor
  · intro h
    unfold sum? at h
    split at h <;> cases h <;> exact ⟨rfl, rfl⟩
  · rintro ⟨rfl, h⟩
    cases op <;> cases h <;> rfl

theorem comparison?_eq_some {k : Option Kind} {op : Operator} :
    comparison? k = some op ↔ k = some op.kind ∧ op.tier = .comparison := by
  constructor
  · intro h
    unfold comparison? at h
    split at h <;> cases h <;> exact ⟨rfl, rfl⟩
  · rintro ⟨rfl, h⟩
    cases op <;> cases h <;> rfl

section
variable {operator? : Option Kind → Option Operator} {operand : Parser Expr}
  {R : Nat → Expr → List Mark → Prop} {L : Nat → Nat → Expr → List Mark → Prop}

theorem link_yields (hop : ∀ ⦃k op⦄, operator? k = some op → k = some op.kind)
    (hoperand : Takes operand R) {o : Option (Operator × Expr)}
    (h : Yields (link? operator? operand) c o d) :
    (o = none ∧ c = d) ∨ ∃ op rhs ws, o = some (op, rhs) ∧
      operator? (some op.kind) = some op ∧ c.marks = .sign op.kind :: (ws ++ d.marks) ∧
      d.levels + 1 = c.levels ∧ R d.levels rhs ws := by
  obtain ⟨k, c₁, hk, h⟩ := yields_bind.1 h
  obtain ⟨rfl, hfront⟩ := peek_yields hk
  split at h
  · rename_i op hoperator
    obtain rfl := hop hoperator
    obtain ⟨u, c₂, hu, h⟩ := yields_bind.1 h
    obtain ⟨u', c₃, hu', h⟩ := yields_bind.1 h
    obtain ⟨rhs, c₄, hrhs, h⟩ := yields_bind.1 h
    obtain ⟨rfl, rfl⟩ := yields_pure.1 h
    obtain ⟨m, hm, hsign⟩ := advance_yields hu hfront
    obtain ⟨hmarks, hlevels⟩ := descend_yields hu'
    obtain ⟨ws, htook, hR⟩ := hoperand hrhs
    rw [hsign.levels] at hlevels
    refine .inr ⟨op, rhs, ws, rfl, hoperator, ?_, ?_, ?_⟩
    · rw [hsign.marks, Mark.eq_operator hm, ← hmarks, htook.marks]
      rfl
    · rw [htook.levels, hlevels]
    · rwa [htook.levels]
  · obtain ⟨rfl, rfl⟩ := yields_pure.1 h
    exact .inl ⟨rfl, rfl⟩

/-- A chain is spelled by its first operand and, one level deeper each, the operators with their
right operands. -/
theorem chain_takes (hop : ∀ ⦃k op⦄, operator? k = some op → k = some op.kind)
    (hoperand : Takes operand R) (hfirst : ∀ ⦃n e ws⦄, R n e ws → L n 0 e ws)
    (hlink : ∀ ⦃n m k s op lhs rhs ws ws'⦄, L n k lhs ws → operator? (some op.kind) = some op →
      R m rhs ws' → m + (k + 1) = n →
      L n (k + 1) (.binary s op lhs rhs) (ws ++ .sign op.kind :: ws')) :
    Takes (chain operator? operand) fun n e ws => ∃ k, L n k e ws := by
  have hshortens : Shortens (link? operator? operand) := by
    intro c x d h
    obtain ⟨⟨⟩, -⟩ | ⟨op, rhs, ws, -, -, hmarks, -⟩ := link_yields hop hoperand h
    rw [hmarks, List.length_cons, List.length_append]
    omega
  have hlinks : ∀ {c d : Cursor} {links : List (Operator × Expr)},
      Repeated (link? operator? operand) c links d → ∀ {n k : Nat} {acc : Expr} {front : List Mark},
      c.levels + k = n → L n k acc front → ∃ k' ws, c.marks = ws ++ d.marks ∧
        L n k' (links.foldl (fun lhs x => binary x.1 lhs x.2) acc) (front ++ ws) := by
    intro c d links h
    induction h with
    | stop h =>
      intro n k acc front _ hacc
      obtain ⟨-, rfl⟩ | ⟨_, _, _, ⟨⟩, -⟩ := link_yields hop hoperand h
      exact ⟨k, [], rfl, by rwa [List.append_nil]⟩
    | more h _ ih =>
      intro n k acc front hlevel hacc
      obtain ⟨⟨⟩, -⟩ | ⟨op, rhs, ws, ⟨⟩, hoperator, hmarks, hlevels, hR⟩ :=
        link_yields hop hoperand h
      have hstep := hlink (s := acc.span.join rhs.span) hacc hoperator hR (by omega)
      obtain ⟨k', ws', hmarks', hL⟩ := ih (by omega) hstep
      refine ⟨k', .sign op.kind :: (ws ++ ws'), ?_, ?_⟩
      · rw [hmarks, hmarks', List.cons_append, List.append_assoc]
      · rwa [List.append_assoc, List.cons_append] at hL
  intro c e d h
  obtain ⟨c₁, h, hmarks, hdepth⟩ := keepDepth_yields h
  obtain ⟨first, c₂, hx, h⟩ := yields_bind.1 h
  obtain ⟨links, c₃, hxs, h⟩ := yields_bind.1 h
  obtain ⟨rfl, rfl⟩ := yields_pure.1 h
  obtain ⟨ws, htook, hR⟩ := hoperand hx
  obtain ⟨k, ws', hmarks', hL⟩ :=
    hlinks (many_yields hshortens hxs) (by rw [htook.levels]; rfl) (hfirst hR)
  refine ⟨ws ++ ws', ⟨?_, hdepth⟩, k, hL⟩
  rw [htook.marks, hmarks', hmarks, List.append_assoc]

end

theorem suffix_yields (hexpr : TakesExpr expr) {o : Option Suffix}
    (h : Yields (suffix? expr) c o d) :
    (o = none ∧ c = d) ∨ ∃ s ws, o = some s ∧ c.marks = ws ++ d.marks ∧ ws ≠ [] ∧
      d.levels + 1 = c.levels ∧ ∀ ⦃n k base front⦄, c.levels + k = n →
        Spells n (.operand k base) front →
        Spells n (.operand (k + 1) (s.apply base)) (front ++ ws) := by
  obtain ⟨b, c₁, hb, h⟩ := yields_bind.1 h
  obtain ⟨rfl, rfl⟩ := at_yields hb
  split at h
  · rename_i hfront
    obtain ⟨u, c₂, hu, h⟩ := yields_bind.1 h
    obtain ⟨hmarks, hlevels⟩ := descend_yields hu
    obtain ⟨u', c₃, hu', h⟩ := yields_bind.1 h
    have hopen := advance_symbol hu' (by rw [hmarks]; exact eq_of_beq hfront)
    obtain ⟨position, c₄, hposition, h⟩ := yields_bind.1 h
    obtain ⟨t, c₅, ht, h⟩ := yields_bind.1 h
    obtain ⟨stop, c₆, hstop, h⟩ := yields_bind.1 h
    obtain rfl := last_yields hstop
    obtain ⟨rfl, rfl⟩ := yields_pure.1 h
    obtain ⟨ws, htook, hspells⟩ := hexpr hposition
    have hall := hopen.cons (htook.trans (expect_symbol ht))
    rw [hopen.levels] at hspells
    refine .inr ⟨_, _, rfl, hmarks ▸ hall.marks, by simp, by rw [hall.levels, hlevels], ?_⟩
    exact fun n k base front hn hbase => .index hbase hspells (by omega)
  · obtain ⟨b, c₂, hb, h⟩ := yields_bind.1 h
    obtain ⟨rfl, rfl⟩ := at_yields hb
    split at h
    · rename_i hfront
      obtain ⟨u, c₂, hu, h⟩ := yields_bind.1 h
      obtain ⟨hmarks, hlevels⟩ := descend_yields hu
      obtain ⟨u', c₃, hu', h⟩ := yields_bind.1 h
      have hdot := advance_symbol hu' (by rw [hmarks]; exact eq_of_beq hfront)
      obtain ⟨name, c₄, hname, h⟩ := yields_bind.1 h
      obtain ⟨stop, c₅, hstop, h⟩ := yields_bind.1 h
      obtain rfl := last_yields hstop
      obtain ⟨rfl, rfl⟩ := yields_pure.1 h
      have hall := hdot.cons (identifier_yields hname)
      refine .inr ⟨_, _, rfl, hmarks ▸ hall.marks, by simp, by rw [hall.levels, hlevels], ?_⟩
      exact fun n k base front hn hbase => .field (m := c₂.levels) hbase (by omega)
    · obtain ⟨rfl, rfl⟩ := yields_pure.1 h
      exact .inl ⟨rfl, rfl⟩

/-- An operand is spelled by its atom and, one level deeper each, its suffixes. -/
theorem postfixed_takes {atom : Parser Expr}
    (hatom : Takes atom fun n e ws => Spells n (.atom e) ws) (hexpr : TakesExpr expr) :
    Takes (postfixed atom expr) fun n e ws => ∃ k, Spells n (.operand k e) ws := by
  have hshortens : Shortens (suffix? expr) := by
    intro c x d h
    obtain ⟨⟨⟩, -⟩ | ⟨s, ws, -, hmarks, hne, -⟩ := suffix_yields hexpr h
    have hpos := List.length_pos_iff.2 hne
    rw [hmarks, List.length_append]
    omega
  have hsuffixes : ∀ {c d : Cursor} {suffixes : List Suffix},
      Repeated (suffix? expr) c suffixes d → ∀ {n k : Nat} {acc : Expr} {front : List Mark},
      c.levels + k = n → Spells n (.operand k acc) front → ∃ k' ws, c.marks = ws ++ d.marks ∧
        Spells n (.operand k' (suffixes.foldl Suffix.apply acc)) (front ++ ws) := by
    intro c d suffixes h
    induction h with
    | stop h =>
      intro n k acc front _ hacc
      obtain ⟨-, rfl⟩ | ⟨_, _, ⟨⟩, -⟩ := suffix_yields hexpr h
      exact ⟨k, [], rfl, by rwa [List.append_nil]⟩
    | more h _ ih =>
      intro n k acc front hlevel hacc
      obtain ⟨⟨⟩, -⟩ | ⟨s, ws, ⟨⟩, hmarks, -, hlevels, happly⟩ := suffix_yields hexpr h
      obtain ⟨k', ws', hmarks', hspells⟩ := ih (by omega) (happly hlevel hacc)
      refine ⟨k', ws ++ ws', by rw [hmarks, hmarks', List.append_assoc], ?_⟩
      rwa [List.append_assoc] at hspells
  intro c e d h
  obtain ⟨c₁, h, hmarks, hdepth⟩ := keepDepth_yields h
  obtain ⟨first, c₂, hx, h⟩ := yields_bind.1 h
  obtain ⟨suffixes, c₃, hxs, h⟩ := yields_bind.1 h
  obtain ⟨rfl, rfl⟩ := yields_pure.1 h
  obtain ⟨ws, htook, hspells⟩ := hatom hx
  obtain ⟨k, ws', hmarks', hall⟩ :=
    hsuffixes (many_yields hshortens hxs) (by rw [htook.levels]; rfl) (.atomAlone hspells)
  refine ⟨ws ++ ws', ⟨?_, hdepth⟩, k, hall⟩
  rw [htook.marks, hmarks', hmarks, List.append_assoc]

/-- A comparison is spelled by two sums, and any other expression by one. -/
theorem comparison_takes {atom : Parser Expr}
    (hatom : Takes atom fun n e ws => Spells n (.atom e) ws) (hexpr : TakesExpr expr) :
    TakesExpr (comparison atom expr) := by
  have hproduct : Takes (chain product? (postfixed atom expr))
      fun n e ws => ∃ k, Spells n (.product k e) ws :=
    chain_takes (fun _ _ h => (product?_eq_some.1 h).1) (postfixed_takes hatom hexpr)
      (fun _ _ _ ⟨_, h⟩ => .operandAlone h)
      fun _ _ _ _ _ _ _ _ _ hlhs hop ⟨_, hrhs⟩ hlevel =>
        .product hlhs (product?_eq_some.1 hop).2 hrhs hlevel
  have hsum : Takes (chain sum? (chain product? (postfixed atom expr)))
      fun n e ws => ∃ k, Spells n (.sum k e) ws :=
    chain_takes (fun _ _ h => (sum?_eq_some.1 h).1) hproduct
      (fun _ _ _ ⟨_, h⟩ => .productAlone h)
      fun _ _ _ _ _ _ _ _ _ hlhs hop ⟨_, hrhs⟩ hlevel =>
        .sum hlhs (sum?_eq_some.1 hop).2 hrhs hlevel
  intro c e d h
  obtain ⟨lhs, c₁, hlhs, h⟩ := yields_bind.1 h
  obtain ⟨ws, htook, k, hspells⟩ := hsum hlhs
  obtain ⟨kind, c₂, hk, h⟩ := yields_bind.1 h
  obtain ⟨rfl, hfront⟩ := peek_yields hk
  split at h
  · rename_i op hop
    obtain ⟨rfl, htier⟩ := comparison?_eq_some.1 hop
    obtain ⟨u, c₃, hu, h⟩ := yields_bind.1 h
    obtain ⟨rhs, c₄, hrhs, h⟩ := yields_bind.1 h
    obtain ⟨rfl, rfl⟩ := yields_pure.1 h
    obtain ⟨m, hm, hsign⟩ := advance_yields hu hfront
    obtain ⟨ws', htook', k', hspells'⟩ := hsum hrhs
    rw [Mark.eq_operator hm] at hsign
    rw [hsign.levels, htook.levels] at hspells'
    exact ⟨_, htook.trans (hsign.cons htook'), .comparison hspells htier hspells'⟩
  · obtain ⟨rfl, rfl⟩ := yields_pure.1 h
    exact ⟨ws, htook, .sumAlone hspells⟩

end TextGrammar.Source.Parser
