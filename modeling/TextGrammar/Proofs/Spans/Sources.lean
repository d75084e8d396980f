import TextGrammar.Proofs.Spans.Statements
import TextGrammar.Proofs.Syntax.Sources

/-! # Spans of parsed patterns and sources

A parser of patterns passes the tokens of what it yields, and a source that is parsed passes all of
its tokens. -/

namespace TextGrammar.Source

theorem Pattern.span_withSpan (s : Span) (p : Pattern) : (p.withSpan s).span = s := by
  cases p <;> rfl

namespace Parser
open Token (Kind)
open Piece

section
variable {c d : Cursor} {unary : Parser Pattern} {expr : Parser Expr}

abbrev PassesPattern (p : Parser Pattern) : Prop :=
  Passes p fun p ps => ps = [part (.pattern p)]

theorem alternative_passed (hunary : PassesPattern unary) :
    PassesStep (alternative? unary) fun p ps => ps = alternativePieces p := by
  intro c o d h
  obtain ⟨b, e, hb, h⟩ := yields_bind.1 h
  have hpipe := accept_passed Mark.eq_symbol hb
  cases b with
  | true =>
    obtain ⟨p, hp, rfl⟩ := yields_map.1 h
    obtain ⟨_, rfl, hpassed⟩ := hunary hp
    exact .inr ⟨p, _, rfl, rfl, nofun, hpipe.trans hpassed⟩
  | false =>
    obtain ⟨rfl, rfl⟩ := yields_pure.1 h
    exact .inl ⟨rfl, hpipe⟩

theorem choice_passed (hunary : PassesPattern unary) : PassesPattern (choice unary) := by
  intro c p d h
  obtain ⟨first, c₁, hfirst, h⟩ := yields_bind.1 h
  obtain ⟨ps, c₂, hps, h⟩ := yields_bind.1 h
  obtain ⟨_, rfl, hpassed⟩ := hunary hfirst
  have hall := hpassed.trans ((alternative_passed hunary).repeated_flatMap hps)
  cases ps with
  | nil =>
    obtain ⟨rfl, rfl⟩ := yields_pure.1 h
    exact ⟨_, rfl, hall⟩
  | cons q qs =>
    obtain ⟨rfl, rfl⟩ := spanned_place h
    exact ⟨_, rfl, hall.suffixed .choice rfl⟩

theorem field_passed (hunary : PassesPattern unary) : Passes (field unary) LaidField := by
  intro c f d h
  obtain ⟨b, c₁, hb, h⟩ := yields_bind.1 h
  obtain ⟨rfl, hlabel⟩ := startsLabel_yields hb
  cases b with
  | true =>
    obtain ⟨label, c₂, hname, h⟩ := yields_bind.1 h
    obtain ⟨u, c₃, hu, h⟩ := yields_bind.1 h
    obtain ⟨p, c₄, hp, h⟩ := yields_bind.1 h
    obtain ⟨rfl, rfl⟩ := yields_pure.1 h
    obtain ⟨_, rfl, hpassed⟩ := choice_passed hunary hp
    have hhead := identifier_named hname
    have hsecond : c.marks[1]?.map Mark.kind = frontKind c₂.marks := by
      rw [(identifier_yields hname).marks, frontKind, List.head?_eq_getElem?]
      rfl
    rw [hsecond] at hlabel
    obtain ⟨hcolon, -⟩ | harrow := hlabel rfl
    · have hsign := advance_passed Mark.eq_symbol hu hcolon
      exact ⟨_, .colon, hhead.cons (hsign.cons hpassed)⟩
    · have hsign := advance_passed Mark.eq_symbol hu harrow
      exact ⟨_, .arrow, hhead.cons (hsign.cons hpassed)⟩
  | false =>
    obtain ⟨p, c₂, hp, h⟩ := yields_bind.1 h
    obtain ⟨rfl, rfl⟩ := yields_pure.1 h
    obtain ⟨_, rfl, hpassed⟩ := choice_passed hunary hp
    exact ⟨_, .free, hpassed⟩

theorem primary_passed (hunary : PassesPattern unary) (hexpr : PassesExpr expr) :
    PassesPattern (primary unary expr) := by
  intro c p d h
  obtain ⟨start, c₁, hstart, h⟩ := yields_bind.1 h
  obtain ⟨rfl, rfl⟩ := here_place hstart
  obtain ⟨k, c₂, hk, h⟩ := yields_bind.1 h
  obtain ⟨rfl, hfront⟩ := peek_yields hk
  split at h
  case h_1 =>
    obtain ⟨name, c₃, hname, h⟩ := yields_bind.1 h
    obtain ⟨rfl, rfl⟩ := spanned_place h
    exact ⟨_, rfl, (identifier_passed hname).1.spanned .patternName rfl⟩
  case h_2 =>
    obtain ⟨s, c₃, hs, h⟩ := yields_bind.1 h
    obtain ⟨rfl, rfl⟩ := spanned_place h
    exact ⟨_, rfl, (string_passed hs).1.spanned .literal rfl⟩
  case h_3 =>
    obtain ⟨u, c₃, hu, h⟩ := yields_bind.1 h
    obtain ⟨inner, c₄, hinner, h⟩ := yields_bind.1 h
    obtain ⟨t, c₅, ht, h⟩ := yields_bind.1 h
    obtain ⟨rfl, rfl⟩ := spanned_place h
    have hopen := advance_passed Mark.eq_symbol hu hfront
    obtain ⟨_, rfl, hpassed⟩ := choice_passed hunary hinner
    have hclose := expect_passed Mark.eq_symbol ht
    exact ⟨_, rfl, (hopen.cons (hpassed.trans hclose)).enclosed (fun _ => .group)
      (inner.span_withSpan _)⟩
  case h_4 =>
    obtain ⟨u, c₃, hu, h⟩ := yields_bind.1 h
    obtain ⟨fields, c₄, hfields, h⟩ := yields_bind.1 h
    have hopen := advance_passed Mark.eq_symbol hu hfront
    obtain ⟨ps, hlaid, hpassed⟩ := listUntil_passed (field_passed hunary) hfields
    have hlist := hopen.cons hpassed
    obtain ⟨b, c₅, hb, h⟩ := yields_bind.1 h
    have harrow := accept_passed Mark.eq_symbol hb
    cases b with
    | true =>
      obtain ⟨action, c₆, haction, h⟩ := yields_bind.1 h
      obtain ⟨e, he, rfl⟩ := yields_map.1 haction
      obtain ⟨rfl, rfl⟩ := spanned_place h
      obtain ⟨_, rfl, hvalue⟩ := hexpr he
      have hall := hlist.trans (harrow.trans hvalue)
      rw [List.cons_append, List.append_assoc] at hall
      exact ⟨_, rfl, hall.spanned (.action hlaid) rfl⟩
    | false =>
      obtain ⟨action, c₆, haction, h⟩ := yields_bind.1 h
      obtain ⟨rfl, rfl⟩ := yields_pure.1 haction
      obtain ⟨rfl, rfl⟩ := spanned_place h
      have hall := hlist.trans harrow
      rw [signIf, if_neg Bool.false_ne_true, List.append_nil] at hall
      exact ⟨_, rfl, hall.spanned (.sequence hlaid) rfl⟩
  case h_5 => cases h

theorem unaryBody_passed (hunary : PassesPattern unary) (hexpr : PassesExpr expr) :
    PassesPattern (unaryBody unary expr) := by
  intro c p d h
  obtain ⟨start, c₁, hstart, h⟩ := yields_bind.1 h
  obtain ⟨rfl, rfl⟩ := here_place hstart
  obtain ⟨b, c₂, hb, h⟩ := yields_bind.1 h
  have hrepeat := accept_passed Mark.eq_keyword hb
  cases b with
  | true =>
    obtain ⟨body, c₃, hbody, h⟩ := yields_bind.1 h
    obtain ⟨rfl, rfl⟩ := spanned_place h
    obtain ⟨_, rfl, hpassed⟩ := hunary hbody
    exact ⟨_, rfl, (hrepeat.trans hpassed).spanned .repetition rfl⟩
  | false =>
  obtain ⟨b, c₃, hb, h⟩ := yields_bind.1 h
  have hbang := hrepeat.trans (accept_passed Mark.eq_symbol hb)
  cases b with
  | true =>
    obtain ⟨body, c₄, hbody, h⟩ := yields_bind.1 h
    obtain ⟨rfl, rfl⟩ := spanned_place h
    obtain ⟨_, rfl, hpassed⟩ := hunary hbody
    exact ⟨_, rfl, (hbang.trans hpassed).spanned .negation rfl⟩
  | false =>
  obtain ⟨body, c₄, hbody, h⟩ := yields_bind.1 h
  obtain ⟨_, rfl, hpassed⟩ := primary_passed hunary hexpr hbody
  obtain ⟨b, c₅, hb, h⟩ := yields_bind.1 h
  obtain ⟨rfl, rfl⟩ := at_yields hb
  obtain ⟨k, c₆, hk, h⟩ := yields_bind.1 h
  obtain ⟨rfl, -⟩ := peekAt_yields hk
  have hbody := hbang.trans hpassed
  split at h
  · rename_i hrename
    obtain ⟨hfront, -⟩ := (Bool.and_eq_true _ _).mp hrename
    obtain ⟨u, c₇, hu, h⟩ := yields_bind.1 h
    obtain ⟨name, c₈, hname, h⟩ := yields_bind.1 h
    obtain ⟨rfl, rfl⟩ := spanned_place h
    have hcolon := advance_passed Mark.eq_symbol hu (eq_of_beq hfront)
    obtain ⟨hstring, hspan⟩ := string_passed hname
    have hall := hbody.trans (hcolon.trans (hstring.spanned .newName hspan))
    exact ⟨_, rfl, hall.spanned .rename rfl⟩
  · obtain ⟨rfl, rfl⟩ := yields_pure.1 h
    exact ⟨_, rfl, hbody⟩

end

/-- Patterns pass their tokens, however deep they are nested. -/
theorem unary_passed (n : Nat) : PassesPattern (unary n) := by
  induction n with
  | zero => exact nofun
  | succ n ih =>
    intro c p d h
    obtain ⟨c', d', hbody, hpassed⟩ := nested_passed h
    obtain ⟨_, rfl, hps⟩ := unaryBody_passed ih (expr_block_passed n).1 hbody
    exact ⟨_, rfl, hpassed hps⟩

section
variable {c d : Cursor}

theorem rule_passed : Passes rule fun r ps => LaidEntry (.rule r) ps := by
  intro c r d h
  obtain ⟨name, c₁, hname, h⟩ := yields_bind.1 h
  obtain ⟨t, c₂, ht, h⟩ := yields_bind.1 h
  obtain ⟨body, c₃, hbody, h⟩ := yields_bind.1 h
  obtain ⟨t', c₄, ht', h⟩ := yields_bind.1 h
  obtain ⟨rfl, rfl⟩ := yields_pure.1 h
  have hdefine := expect_passed Mark.eq_symbol ht
  obtain ⟨_, rfl, hpassed⟩ := choice_passed (unary_passed nestingLimit) hbody
  have hend := hpassed.trans (expect_passed Mark.eq_symbol ht')
  exact ⟨_, .rule, (identifier_named hname).cons (hdefine.cons hend)⟩

theorem startPattern_passed : Passes startPattern fun p ps => LaidEntry (.start p) ps := by
  intro c p d h
  obtain ⟨q, c₁, hq, h⟩ := yields_bind.1 h
  obtain ⟨_, rfl, hpassed⟩ := choice_passed (unary_passed nestingLimit) hq
  obtain ⟨b, c₂, hb, h⟩ := yields_bind.1 h
  have hsemicolon := hpassed.trans (accept_passed Mark.eq_symbol hb)
  cases b with
  | true =>
    obtain ⟨rfl, rfl⟩ := yields_pure.1 h
    exact ⟨_, .startEnded (.inl rfl), hsemicolon⟩
  | false =>
    obtain ⟨b, c₃, hb, h⟩ := yields_bind.1 h
    obtain ⟨rfl, rfl⟩ := yields_pure.1 h
    have hcomma := hsemicolon.trans (accept_passed Mark.eq_symbol hb)
    cases b with
    | true => exact ⟨_, .startEnded (.inr rfl), hcomma⟩
    | false => exact ⟨_, .start, hcomma⟩

theorem LaidEntry.ne_nil {x : Item} {ps : List Piece} (h : LaidEntry x ps) : ps ≠ [] := by
  cases h <;> nofun

theorem nextRule_passed : PassesStep nextRule fun r ps => LaidEntry (.rule r) ps := by
  intro c o d h
  obtain ⟨b, c₁, hb, h⟩ := yields_bind.1 h
  obtain rfl := startsRule_yields hb
  cases b with
  | true =>
    obtain ⟨r, hr, rfl⟩ := yields_map.1 h
    obtain ⟨ps, hlaid, hpassed⟩ := rule_passed hr
    exact .inr ⟨r, ps, rfl, hlaid, LaidEntry.ne_nil hlaid, hpassed⟩
  | false =>
    obtain ⟨rfl, rfl⟩ := yields_pure.1 h
    exact .inl ⟨rfl, .refl _⟩

theorem item_passed : PassesStep item? LaidEntry := by
  intro c o d h
  obtain ⟨b, c₁, hb, h⟩ := yields_bind.1 h
  obtain ⟨rfl, -⟩ := at_yields hb
  cases b with
  | true =>
    obtain ⟨rfl, rfl⟩ := yields_pure.1 h
    exact .inl ⟨rfl, .refl _⟩
  | false =>
  obtain ⟨b, c₂, hb, h⟩ := yields_bind.1 h
  obtain ⟨rfl, hdashes⟩ := at_yields hb
  cases b with
  | true =>
    obtain ⟨span, c₃, hspan, h⟩ := yields_bind.1 h
    obtain rfl := here_yields hspan
    obtain ⟨u, c₄, hu, h⟩ := yields_bind.1 h
    obtain ⟨rfl, rfl⟩ := yields_pure.1 h
    have hsign : ∀ {m : Mark}, m.kind = .dashes → m = .sign .dashes := by
      intro m hm
      cases m <;> cases hm
      rfl
    exact .inr ⟨_, _, rfl, .separator, nofun, advance_passed hsign hu (eq_of_beq hdashes.symm)⟩
  | false =>
  obtain ⟨b, c₃, hb, h⟩ := yields_bind.1 h
  obtain rfl := startsRule_yields hb
  cases b with
  | true =>
    obtain ⟨r, c₄, hr, h⟩ := yields_bind.1 h
    obtain ⟨rfl, rfl⟩ := yields_pure.1 h
    obtain ⟨ps, hlaid, hpassed⟩ := rule_passed hr
    exact .inr ⟨_, ps, rfl, hlaid, LaidEntry.ne_nil hlaid, hpassed⟩
  | false =>
    obtain ⟨p, c₄, hp, h⟩ := yields_bind.1 h
    obtain ⟨rfl, rfl⟩ := yields_pure.1 h
    obtain ⟨ps, hlaid, hpassed⟩ := startPattern_passed hp
    exact .inr ⟨_, ps, rfl, hlaid, LaidEntry.ne_nil hlaid, hpassed⟩

/-- A source passes the pieces of its entries in braces, and no token is left. -/
theorem file_passed {file : File} (h : Yields Parser.file c file d) :
    ∃ ps, LaidFile file ps ∧ Passed c ps d ∧ d.rest = [] := by
  obtain ⟨word, brace, rules, items, close, c₁, c₂, c₃, c₄, hword, hbrace, hrules, hitems, hclose,
    hnil, hfileRules, -, hfileStarts⟩ := yields_file h
  obtain ⟨defined, rfl, hlaid, hdefined⟩ := nextRule_passed.repeated hrules
  obtain ⟨rows, rfl, hrows, hpassed⟩ : ∃ rows : List (Item × List Piece),
      items = rows.map Prod.fst ∧ (∀ x ∈ rows, LaidEntry x.1 x.2) ∧
      Passed c₃ (rows.flatMap Prod.snd) c₄ := by
    obtain ⟨-, hitems⟩ | ⟨rfl, rfl⟩ := hitems
    · exact item_passed.repeated hitems
    · exact ⟨[], rfl, List.forall_mem_nil _, .refl _⟩
  have hentries : ∀ x ∈ defined.map (Prod.map Item.rule id) ++ rows, LaidEntry x.1 x.2 :=
    List.forall_mem_append.2 ⟨List.forall_mem_map.2 hlaid, hrows⟩
  have hpieces : (defined.map (Prod.map Item.rule id) ++ rows).flatMap Prod.snd =
      defined.flatMap Prod.snd ++ rows.flatMap Prod.snd := by
    rw [List.flatMap_append, List.flatMap_map]
    rfl
  have hall := hdefined.trans (hpassed.trans (expect_passed Mark.eq_symbol hclose))
  rw [← List.append_assoc, ← hpieces] at hall
  have hopen := expect_passed Mark.eq_symbol hbrace
  refine ⟨_, .mk hentries ?_ ?_, (expect_passed Mark.eq_keyword hword).cons (hopen.cons hall),
    List.map_eq_nil_iff.1 hnil⟩
  · rw [hfileRules]
    simp [List.filterMap_append, List.filterMap_map, Function.comp_def, Item.rule?]
  · rw [hfileStarts]
    simp [List.filterMap_append, List.filterMap_map, Function.comp_def, Item.start?]

end

end Parser

end TextGrammar.Source
