import TextGrammar.Proofs.Display.Sources
import TextGrammar.Proofs.Syntax.Statements

/-! # Parsed patterns and sources are spelled by their tokens

Whatever a parser of patterns yields is spelled by the marks that it has taken. A source takes all
of its tokens: rules in front of the first separator, and any entries behind it. -/

namespace TextGrammar.Source
namespace Parser
open Token (Kind)

section
variable {c d : Cursor} {unary : Parser Pattern} {expr : Parser Expr}

abbrev TakesUnary (unary : Parser Pattern) : Prop :=
  Takes unary fun n p ws => SpellsPattern n (.unary p) true ws

abbrev TakesChoice (choice : Parser Pattern) : Prop :=
  Takes choice fun n p ws => SpellsPattern n (.choice p) true ws

theorem alternative_yields (hunary : TakesUnary unary) {o : Option Pattern}
    (h : Yields (alternative? unary) c o d) :
    (o = none ∧ c = d) ∨ ∃ p ws, o = some p ∧ Took c (.symbol .pipe :: ws) d ∧
      SpellsPattern c.levels (.unary p) true ws := by
  obtain ⟨b, e, hb, h⟩ := yields_bind.1 h
  obtain ⟨rfl, hpipe⟩ | ⟨rfl, rfl, -⟩ := accept_symbol hb
  · obtain ⟨p, hp, rfl⟩ := yields_map.1 h
    obtain ⟨ws, htook, hspells⟩ := hunary hp
    exact .inr ⟨p, ws, rfl, hpipe.cons htook, hpipe.levels ▸ hspells⟩
  · obtain ⟨rfl, rfl⟩ := yields_pure.1 h
    exact .inl ⟨rfl, rfl⟩

/-- The alternatives behind the first one. -/
theorem repeated_alternative (hunary : TakesUnary unary) {ps : List Pattern}
    (h : Repeated (alternative? unary) c ps d) :
    ∃ tail, Took c tail d ∧ ∀ {first : Pattern} {ws : List Mark},
      SpellsPattern c.levels (.unary first) true ws →
      SpellsPattern c.levels (.alternatives (first :: ps)) true (ws ++ tail) := by
  induction h with
  | stop h =>
    obtain ⟨-, rfl⟩ | ⟨_, _, ⟨⟩, -⟩ := alternative_yields hunary h
    refine ⟨[], .refl _, fun hfirst => ?_⟩
    rw [List.append_nil]
    exact .lastAlternative hfirst
  | more h _ ih =>
    obtain ⟨⟨⟩, -⟩ | ⟨p, ws, ⟨⟩, htook, hspells⟩ := alternative_yields hunary h
    obtain ⟨tail, htook', hrest⟩ := ih
    rw [htook.levels] at hrest
    exact ⟨_, htook.trans htook', fun hfirst => .nextAlternative hfirst (hrest hspells)⟩

/-- A single alternative is a pattern that is no choice. -/
theorem spells_single {n : Nat} {action : Bool} {p : Pattern} {ws : List Mark}
    (h : SpellsPattern n (.alternatives [p]) action ws) :
    SpellsPattern n (.unary p) action ws := by
  cases h with
  | lastAlternative h => exact h
  | nextAlternative _ hrest => cases hrest

theorem choice_takes (hunary : TakesUnary unary) : TakesChoice (choice unary) := by
  intro c p d h
  have hshortens : Shortens (alternative? unary) := by
    intro c x d h
    obtain ⟨⟨⟩, -⟩ | ⟨_, _, -, htook, -⟩ := alternative_yields hunary h
    exact htook.length_lt
  obtain ⟨first, c₁, hfirst, h⟩ := yields_bind.1 h
  obtain ⟨ps, c₂, hps, h⟩ := yields_bind.1 h
  obtain ⟨ws, htook, hspells⟩ := hunary hfirst
  obtain ⟨tail, htook', hrest⟩ := repeated_alternative hunary (many_yields hshortens hps)
  rw [htook.levels] at hrest
  have hall := htook.trans htook'
  have halternatives := hrest hspells
  cases ps with
  | nil =>
    obtain ⟨rfl, rfl⟩ := yields_pure.1 h
    exact ⟨_, hall, .alone (spells_single halternatives)⟩
  | cons q qs =>
    obtain ⟨rfl, span, rfl⟩ := spanned_yields h
    exact ⟨_, hall, .choice halternatives⟩

theorem startsLabel_yields {b : Bool} (h : Yields startsLabel c b d) :
    c = d ∧ (b = true → (c.marks[1]?.map Mark.kind = some (.symbol .colon) ∧
        c.marks[2]?.map Mark.kind ≠ some .string) ∨
      c.marks[1]?.map Mark.kind = some (.symbol .leftArrow)) := by
  obtain ⟨b', e, hb, h⟩ := yields_bind.1 h
  obtain ⟨rfl, -⟩ := at_yields hb
  split at h
  · obtain ⟨k, e, hk, h⟩ := yields_bind.1 h
    obtain ⟨rfl, hsecond⟩ := peekAt_yields hk
    split at h
    · obtain ⟨k', e, hk', h⟩ := yields_bind.1 h
      obtain ⟨rfl, rfl⟩ := peekAt_yields hk'
      obtain ⟨rfl, rfl⟩ := yields_pure.1 h
      exact ⟨rfl, fun hb => .inl ⟨hsecond, bne_iff_ne.1 hb⟩⟩
    · obtain ⟨rfl, rfl⟩ := yields_pure.1 h
      exact ⟨rfl, fun _ => .inr hsecond⟩
    · obtain ⟨rfl, rfl⟩ := yields_pure.1 h
      exact ⟨rfl, nofun⟩
  · obtain ⟨rfl, rfl⟩ := yields_pure.1 h
    exact ⟨rfl, nofun⟩

theorem field_takes (hunary : TakesUnary unary) :
    Takes (field unary) fun n f ws => SpellsPattern n (.field f) true ws := by
  intro c f d h
  obtain ⟨b, c₁, hb, h⟩ := yields_bind.1 h
  obtain ⟨rfl, hlabel⟩ := startsLabel_yields hb
  cases b with
  | true =>
    obtain ⟨label, c₂, hname, h⟩ := yields_bind.1 h
    obtain ⟨u, c₃, hu, h⟩ := yields_bind.1 h
    obtain ⟨p, c₄, hp, h⟩ := yields_bind.1 h
    obtain ⟨rfl, rfl⟩ := yields_pure.1 h
    have hhead := identifier_yields hname
    obtain ⟨ws, htook, hspells⟩ := choice_takes hunary hp
    have hsecond : c.marks[1]?.map Mark.kind = frontKind c₂.marks := by
      rw [hhead.marks, frontKind, List.head?_eq_getElem?]
      rfl
    rw [hsecond] at hlabel
    obtain ⟨hcolon, hthird⟩ | harrow := hlabel rfl
    · have hsign := hhead.cons (advance_symbol hu hcolon)
      rw [hsign.levels] at hspells
      refine ⟨_, hsign.trans htook, .colon hspells ?_⟩
      rw [hsign.marks, htook.marks] at hthird
      cases ws with
      | nil => simp
      | cons m ws => exact hthird
    · have hsign := hhead.cons (advance_symbol hu harrow)
      rw [hsign.levels] at hspells
      exact ⟨_, hsign.trans htook, .arrow hspells⟩
  | false =>
    obtain ⟨p, c₂, hp, h⟩ := yields_bind.1 h
    obtain ⟨rfl, rfl⟩ := yields_pure.1 h
    obtain ⟨ws, htook, hspells⟩ := choice_takes hunary hp
    exact ⟨ws, htook, .free hspells⟩

theorem primary_takes (hunary : TakesUnary unary) (hexpr : TakesExpr expr) :
    Takes (primary unary expr) fun n p ws => SpellsPattern n (.primary p) true ws := by
  intro c p d h
  obtain ⟨start, c₁, hstart, h⟩ := yields_bind.1 h
  obtain rfl := here_yields hstart
  obtain ⟨k, c₂, hk, h⟩ := yields_bind.1 h
  obtain ⟨rfl, hfront⟩ := peek_yields hk
  split at h
  case h_1 =>
    obtain ⟨name, c₃, hname, h⟩ := yields_bind.1 h
    obtain ⟨rfl, span, rfl⟩ := spanned_yields h
    exact ⟨_, identifier_yields hname, .name⟩
  case h_2 =>
    obtain ⟨s, c₃, hs, h⟩ := yields_bind.1 h
    obtain ⟨rfl, span, rfl⟩ := spanned_yields h
    exact ⟨_, string_yields hs, .literal⟩
  case h_3 =>
    obtain ⟨u, c₃, hu, h⟩ := yields_bind.1 h
    have hopen := advance_symbol hu hfront
    obtain ⟨inner, c₄, hinner, h⟩ := yields_bind.1 h
    obtain ⟨t, c₅, ht, h⟩ := yields_bind.1 h
    obtain ⟨rfl, span, rfl⟩ := spanned_yields h
    obtain ⟨ws, htook, hspells⟩ := choice_takes hunary hinner
    rw [hopen.levels] at hspells
    exact ⟨_, hopen.cons (htook.trans (expect_symbol ht)), .parens hspells⟩
  case h_4 =>
    obtain ⟨u, c₃, hu, h⟩ := yields_bind.1 h
    have hopen := advance_symbol hu hfront
    obtain ⟨fields, c₄, hfields, h⟩ := yields_bind.1 h
    obtain ⟨items, ws, htook, hlength, hitems, hlisted⟩ :=
      listUntil_yields (field_takes hunary) hfields
    rw [hopen.levels] at hitems
    have hlist := hopen.cons htook
    obtain ⟨b, c₅, hb, h⟩ := yields_bind.1 h
    obtain ⟨rfl, harrow⟩ | ⟨rfl, rfl, -⟩ := accept_symbol hb
    · obtain ⟨action, c₆, haction, h⟩ := yields_bind.1 h
      obtain ⟨e, he, rfl⟩ := yields_map.1 haction
      obtain ⟨rfl, span, rfl⟩ := spanned_yields h
      obtain ⟨ws', htook', hbody⟩ := hexpr he
      rw [harrow.levels, hlist.levels] at hbody
      have hall := hlist.trans (harrow.cons htook')
      rw [List.cons_append, List.append_assoc] at hall
      exact ⟨_, hall, .action hlength hitems hlisted hbody⟩
    · obtain ⟨action, c₆, haction, h⟩ := yields_bind.1 h
      obtain ⟨rfl, rfl⟩ := yields_pure.1 haction
      obtain ⟨rfl, span, rfl⟩ := spanned_yields h
      exact ⟨_, hlist, .sequence hlength hitems hlisted⟩
  case h_5 => cases h

theorem unaryBody_yields (hunary : TakesUnary unary) (hexpr : TakesExpr expr) {p : Pattern}
    (h : Yields (unaryBody unary expr) c p d) :
    ∃ ws, Took c ws d ∧ SpellsPattern (c.levels + 1) (.unary p) true ws := by
  obtain ⟨start, c₁, hstart, h⟩ := yields_bind.1 h
  obtain rfl := here_yields hstart
  obtain ⟨b, c₂, hb, h⟩ := yields_bind.1 h
  obtain ⟨rfl, hrepeat⟩ | ⟨rfl, rfl, -⟩ := accept_keyword hb
  · obtain ⟨body, c₃, hbody, h⟩ := yields_bind.1 h
    obtain ⟨rfl, span, rfl⟩ := spanned_yields h
    obtain ⟨ws, htook, hspells⟩ := hunary hbody
    rw [hrepeat.levels] at hspells
    exact ⟨_, hrepeat.cons htook, .repetition hspells⟩
  obtain ⟨b, c₂, hb, h⟩ := yields_bind.1 h
  obtain ⟨rfl, hbang⟩ | ⟨rfl, rfl, -⟩ := accept_symbol hb
  · obtain ⟨body, c₃, hbody, h⟩ := yields_bind.1 h
    obtain ⟨rfl, span, rfl⟩ := spanned_yields h
    obtain ⟨ws, htook, hspells⟩ := hunary hbody
    rw [hbang.levels] at hspells
    exact ⟨_, hbang.cons htook, .negation hspells⟩
  obtain ⟨body, c₃, hbody, h⟩ := yields_bind.1 h
  obtain ⟨ws, htook, hspells⟩ := primary_takes hunary hexpr hbody
  obtain ⟨b, c₄, hb, h⟩ := yields_bind.1 h
  obtain ⟨rfl, rfl⟩ := at_yields hb
  obtain ⟨k, c₅, hk, h⟩ := yields_bind.1 h
  obtain ⟨rfl, -⟩ := peekAt_yields hk
  split at h
  · rename_i hrename
    obtain ⟨hfront, -⟩ := (Bool.and_eq_true _ _).mp hrename
    obtain ⟨u, c₆, hu, h⟩ := yields_bind.1 h
    obtain ⟨name, c₇, hname, h⟩ := yields_bind.1 h
    obtain ⟨rfl, span, rfl⟩ := spanned_yields h
    have hcolon := advance_symbol hu (eq_of_beq hfront)
    exact ⟨_, htook.trans (hcolon.cons (string_yields hname)), .rename hspells⟩
  · obtain ⟨rfl, rfl⟩ := yields_pure.1 h
    exact ⟨ws, htook, .bare hspells⟩

end

/-- Patterns are spelled by the marks they take, however deep they are nested. -/
theorem unary_takes (n : Nat) : TakesUnary (unary n) := by
  induction n with
  | zero => exact nofun
  | succ n ih =>
    intro c p d h
    obtain ⟨c', d', hbody, hlevels, htook⟩ := nested_yields h
    obtain ⟨ws, hws, hspells⟩ := unaryBody_yields ih (expr_block_take n).1 hbody
    exact ⟨ws, htook ws hws, hlevels ▸ hspells⟩

section
variable {c d : Cursor}

/-- A choice of patterns with all levels left. -/
theorem wholeChoice_takes : TakesChoice (choice (unary nestingLimit)) :=
  choice_takes (unary_takes nestingLimit)

theorem startsRule_yields {b : Bool} (h : Yields startsRule c b d) : c = d := by
  obtain ⟨found, e, hfound, h⟩ := yields_bind.1 h
  obtain ⟨rfl, -⟩ := at_yields hfound
  obtain ⟨k, e, hk, h⟩ := yields_bind.1 h
  obtain ⟨rfl, -⟩ := peekAt_yields hk
  exact (yields_pure.1 h).2

theorem rule_yields {r : Rule} (h : Yields rule c r d) :
    ∃ x : Entry, x.item = .rule r ∧ Took c x.marks d ∧ SpellsEntry c.levels x := by
  obtain ⟨name, c₁, hname, h⟩ := yields_bind.1 h
  obtain ⟨t, c₂, ht, h⟩ := yields_bind.1 h
  obtain ⟨body, c₃, hbody, h⟩ := yields_bind.1 h
  obtain ⟨t', c₄, ht', h⟩ := yields_bind.1 h
  obtain ⟨rfl, rfl⟩ := yields_pure.1 h
  have hhead := (identifier_yields hname).cons (expect_symbol ht)
  obtain ⟨ws, htook, hspells⟩ := wholeChoice_takes hbody
  rw [hhead.levels] at hspells
  exact ⟨_, rfl, hhead.trans (htook.trans (expect_symbol ht')), .rule hspells⟩

theorem startPattern_yields {p : Pattern} (h : Yields startPattern c p d) :
    ∃ x : Entry, x.item = .start p ∧ Took c x.marks d ∧ SpellsEntry c.levels x := by
  obtain ⟨q, c₁, hq, h⟩ := yields_bind.1 h
  obtain ⟨ws, htook, hspells⟩ := wholeChoice_takes hq
  obtain ⟨b, c₂, hb, h⟩ := yields_bind.1 h
  obtain ⟨rfl, hstop⟩ | ⟨rfl, rfl, -⟩ := accept_symbol hb
  · obtain ⟨rfl, rfl⟩ := yields_pure.1 h
    exact ⟨_, rfl, htook.trans hstop, .startEnded hspells (.inl rfl)⟩
  · obtain ⟨b, c₃, hb, h⟩ := yields_bind.1 h
    obtain ⟨rfl, rfl⟩ := yields_pure.1 h
    obtain ⟨rfl, hstop⟩ | ⟨rfl, rfl, -⟩ := accept_symbol hb
    · exact ⟨_, rfl, htook.trans hstop, .startEnded hspells (.inr rfl)⟩
    · exact ⟨⟨_, ws, true⟩, rfl, htook, .start hspells⟩

/-- A pattern starts with a mark that no separator, label sign or end of a list has. -/
theorem spellsPattern_front {n : Nat} {phrase : PatternPhrase} {action : Bool} {ws : List Mark}
    (h : SpellsPattern n phrase action ws) :
    ∃ m ws', ws = m :: ws' ∧ m.kind ∈ patternOpeners := by
  induction h with
  | alone _ ih | choice _ ih | lastAlternative _ ih | bare _ ih | free _ ih => exact ih
  | nextAlternative _ _ ih _ | rename _ ih =>
    obtain ⟨m, ws', rfl, hm⟩ := ih
    exact ⟨m, _, rfl, hm⟩
  | _ => exact ⟨_, _, rfl, by simp [patternOpeners, Mark.kind]⟩

theorem spellsEntry_front {n : Nat} {x : Entry} (h : SpellsEntry n x) :
    ∃ m ws, x.marks = m :: ws ∧
      (x.separator?.isSome ∧ m.kind = .dashes ∨ m.kind ∈ patternOpeners) := by
  cases h with
  | separator => exact ⟨_, _, rfl, .inl ⟨rfl, rfl⟩⟩
  | rule => exact ⟨_, _, rfl, .inr (by simp [patternOpeners, Mark.kind])⟩
  | start h =>
    obtain ⟨m, ws, rfl, hm⟩ := spellsPattern_front h
    exact ⟨m, _, rfl, .inr hm⟩
  | startEnded h =>
    obtain ⟨m, ws, rfl, hm⟩ := spellsPattern_front h
    exact ⟨m, _, rfl, .inr hm⟩

/-- Only a separator starts with dashes. -/
theorem separator_of_front {n : Nat} {x : Entry} (h : SpellsEntry n x)
    (hfront : frontKind x.marks = some .dashes) : x.separator?.isSome := by
  obtain ⟨m, ws, hmarks, ⟨hseparator, -⟩ | hm⟩ := spellsEntry_front h
  · exact hseparator
  · rw [hmarks] at hfront
    rw [Option.some.inj hfront] at hm
    exact absurd hm (by decide)

def TakesEntry {α : Type} (step : Parser (Option α)) (get : Entry → Option α) : Prop :=
  ∀ ⦃c o d⦄, Yields step c o d → (o = none ∧ c = d) ∨
    ∃ x : Entry, o = get x ∧ o.isSome ∧ Took c x.marks d ∧ SpellsEntry c.levels x

section
variable {α : Type} {step : Parser (Option α)} {get : Entry → Option α}

theorem TakesEntry.shortens (hstep : TakesEntry step get) : Shortens step := by
  intro c x d h
  obtain ⟨⟨⟩, -⟩ | ⟨y, -, -, htook, hspells⟩ := hstep h
  obtain ⟨m, ws, hmarks, -⟩ := spellsEntry_front hspells
  rw [hmarks] at htook
  exact htook.length_lt

/-- Entries are taken one after the other. -/
theorem repeated_entry (hstep : TakesEntry step get) {xs : List α} (h : Repeated step c xs d) :
    ∃ entries : List Entry, xs.map some = entries.map get ∧
      Took c (entries.flatMap Entry.marks) d ∧ ∀ x ∈ entries, SpellsEntry c.levels x := by
  induction h with
  | stop h =>
    obtain ⟨-, rfl⟩ | ⟨_, _, ⟨⟩, -⟩ := hstep h
    exact ⟨[], rfl, .refl _, nofun⟩
  | more h _ ih =>
    obtain ⟨⟨⟩, -⟩ | ⟨x, hx, -, htook, hspells⟩ := hstep h
    obtain ⟨entries, hentries, htook', hall⟩ := ih
    rw [htook.levels] at hall
    refine ⟨x :: entries, ?_, htook.trans htook', List.forall_mem_cons.2 ⟨hspells, hall⟩⟩
    rw [List.map_cons, List.map_cons, hx, hentries]

end

theorem nextRule_takes : TakesEntry nextRule Entry.rule? := by
  intro c o d h
  obtain ⟨b, c₁, hb, h⟩ := yields_bind.1 h
  obtain rfl := startsRule_yields hb
  cases b with
  | true =>
    obtain ⟨r, hr, rfl⟩ := yields_map.1 h
    obtain ⟨x, hx, htook, hspells⟩ := rule_yields hr
    exact .inr ⟨x, by rw [Entry.rule?, hx]; rfl, rfl, htook, hspells⟩
  | false =>
    obtain ⟨rfl, rfl⟩ := yields_pure.1 h
    exact .inl ⟨rfl, rfl⟩

theorem item_takes : TakesEntry item? (some ∘ Entry.item) := by
  intro c o d h
  obtain ⟨b, c₁, hb, h⟩ := yields_bind.1 h
  obtain ⟨rfl, -⟩ := at_yields hb
  cases b with
  | true =>
    obtain ⟨rfl, rfl⟩ := yields_pure.1 h
    exact .inl ⟨rfl, rfl⟩
  | false =>
  obtain ⟨b, c₂, hb, h⟩ := yields_bind.1 h
  obtain ⟨rfl, hdashes⟩ := at_yields hb
  cases b with
  | true =>
    obtain ⟨span, c₃, hspan, h⟩ := yields_bind.1 h
    obtain rfl := here_yields hspan
    obtain ⟨u, c₄, hu, h⟩ := yields_bind.1 h
    obtain ⟨rfl, rfl⟩ := yields_pure.1 h
    obtain ⟨m, hm, htook⟩ := advance_yields hu (eq_of_beq hdashes.symm)
    have hsign : m = .sign .dashes := by cases m <;> cases hm; rfl
    rw [hsign] at htook
    exact .inr ⟨⟨.separator span, _, _⟩, rfl, rfl, htook, .separator⟩
  | false =>
  obtain ⟨b, c₃, hb, h⟩ := yields_bind.1 h
  obtain rfl := startsRule_yields hb
  cases b with
  | true =>
    obtain ⟨r, c₄, hr, h⟩ := yields_bind.1 h
    obtain ⟨rfl, rfl⟩ := yields_pure.1 h
    obtain ⟨x, hx, htook, hspells⟩ := rule_yields hr
    exact .inr ⟨x, congrArg some hx.symm, rfl, htook, hspells⟩
  | false =>
    obtain ⟨p, c₄, hp, h⟩ := yields_bind.1 h
    obtain ⟨rfl, rfl⟩ := yields_pure.1 h
    obtain ⟨x, hx, htook, hspells⟩ := startPattern_yields hp
    exact .inr ⟨x, congrArg some hx.symm, rfl, htook, hspells⟩

/-- Entries that start with dashes start with a separator. -/
theorem items_yield {items : List Item} (hdashes : frontKind c.marks = some .dashes)
    (h : Yields (many item?) c items d) :
    ∃ entries : List Entry, items = entries.map Entry.item ∧
      Took c (entries.flatMap Entry.marks) d ∧ (∀ x ∈ entries, SpellsEntry c.levels x) ∧
      ∀ x ∈ entries.head?, x.separator?.isSome := by
  obtain ⟨entries, hentries, htook, hall⟩ :=
    repeated_entry item_takes (many_yields item_takes.shortens h)
  have hitems : items = entries.map Entry.item := by
    rw [← List.map_map] at hentries
    exact List.map_injective_iff.2 (fun _ _ => Option.some.inj) hentries
  refine ⟨entries, hitems, htook, hall, fun x hx => ?_⟩
  cases entries with
  | nil => cases hx
  | cons y ys =>
    obtain rfl := Option.some.inj hx
    have hy := hall y List.mem_cons_self
    obtain ⟨m, ws, hmarks, -⟩ := spellsEntry_front hy
    refine separator_of_front hy ?_
    rw [htook.marks, List.flatMap_cons, hmarks] at hdashes
    rw [hmarks]
    exact hdashes

theorem start_of_rule {x : Entry} (h : x.rule?.isSome) : x.start? = none := by
  obtain ⟨_ | _ | _, ws, action⟩ := x
  · cases h
  · rfl
  · cases h

theorem separator_of_rule {x : Entry} (h : x.rule?.isSome) : x.separator? = none := by
  obtain ⟨_ | _ | _, ws, action⟩ := x
  · cases h
  · rfl
  · cases h

/-- Behind a separator at the front of some entries, or behind rules only, a start pattern has a
separator in front of it. -/
theorem separated_of_head {rules entries : List Entry} (hrules : ∀ x ∈ rules, x.rule?.isSome)
    (hentries : ∀ x ∈ entries.head?, x.separator?.isSome) {front back : List Entry} {x : Entry}
    (h : rules ++ entries = front ++ x :: back) (hx : x.start?.isSome) :
    ∃ y ∈ front, y.separator?.isSome := by
  have hseparator : ∀ y : Entry, y.separator?.isSome → y.start? = none := by
    rintro ⟨_ | _ | _, ws, action⟩ hy
    · rfl
    · cases hy
    · cases hy
  have hhead : ∀ y ys, entries = y :: ys → y.separator?.isSome :=
    fun y ys hy => hentries y (by rw [hy]; rfl)
  obtain ⟨mid, rfl, hmid⟩ | ⟨mid, rfl, hmid⟩ := List.append_eq_append_iff.1 h
  · cases mid with
    | nil =>
      rw [hseparator x (hhead x back hmid)] at hx
      cases hx
    | cons y ys => exact ⟨y, by simp, hhead y _ hmid⟩
  · cases mid with
    | nil =>
      rw [hseparator x (hhead x back hmid.symm)] at hx
      cases hx
    | cons y ys =>
      obtain ⟨rfl, -⟩ := List.cons.inj hmid
      rw [start_of_rule (hrules x (by simp))] at hx
      cases hx

/-- A source is read as rules, as entries from the first separator on if there is one, and as the
closing brace, behind which nothing stands. -/
theorem yields_file {file : File} (h : Yields Parser.file c file d) :
    ∃ word brace rules items close c₁ c₂ c₃ c₄,
      Yields (expect (.keyword .grammar)) c word c₁ ∧
      Yields (expect (.symbol .leftBrace)) c₁ brace c₂ ∧
      Yields (many nextRule) c₂ rules c₃ ∧
      (frontKind c₃.marks = some .dashes ∧ Yields (many item?) c₃ items c₄ ∨
        items = [] ∧ c₄ = c₃) ∧
      Yields (expect (.symbol .rightBrace)) c₄ close d ∧ d.marks = [] ∧
      file.rules = rules ++ items.filterMap Item.rule? ∧
      file.separators = items.filterMap Item.separator? ∧
      file.starts = items.filterMap Item.start? := by
  obtain ⟨word, c₁, hword, h⟩ := yields_bind.1 h
  obtain ⟨brace, c₂, hbrace, h⟩ := yields_bind.1 h
  obtain ⟨rules, c₃, hrules, h⟩ := yields_bind.1 h
  obtain ⟨b, e, hb, h⟩ := yields_bind.1 h
  obtain ⟨rfl, hdashes⟩ := at_yields hb
  obtain ⟨b', e', hb', h⟩ := yields_bind.1 h
  obtain ⟨rfl, -⟩ := at_yields hb'
  obtain ⟨items, c₄, hitems, h⟩ : ∃ items c₄,
      (frontKind c₃.marks = some .dashes ∧ Yields (many item?) c₃ items c₄ ∨
        items = [] ∧ c₄ = c₃) ∧
      Yields (do
        let close ← expect (.symbol .rightBrace)
        if (← peek).isSome then unexpected .endOfInput
        else
          return {
            rules := rules ++ items.filterMap Item.rule?
            separators := items.filterMap Item.separator?
            starts := items.filterMap Item.start?
            close := close.span }) c₄ file d := by
    cases b with
    | true =>
      obtain ⟨items, c₄, hitems, h⟩ := yields_bind.1 h
      exact ⟨items, c₄, .inl ⟨eq_of_beq hdashes.symm, hitems⟩, h⟩
    | false =>
      cases b' with
      | true =>
        obtain ⟨items, c₄, hitems, h⟩ := yields_bind.1 h
        obtain ⟨rfl, rfl⟩ := yields_pure.1 hitems
        exact ⟨[], c₃, .inr ⟨rfl, rfl⟩, h⟩
      | false =>
        obtain ⟨items, c₄, hitems, -⟩ := yields_bind.1 h
        cases hitems
  obtain ⟨close, c₅, hclose, h⟩ := yields_bind.1 h
  obtain ⟨k, c₆, hk, h⟩ := yields_bind.1 h
  obtain ⟨rfl, hfront⟩ := peek_yields hk
  split at h
  · cases h
  rename_i hnone
  obtain ⟨rfl, rfl⟩ := yields_pure.1 h
  have hend : c₅.marks = [] := by
    cases hmarks : c₅.marks with
    | nil => rfl
    | cons m ws =>
      rw [← hfront, hmarks] at hnone
      exact absurd rfl hnone
  exact ⟨word, brace, rules, items, close, c₁, c₂, c₃, c₄, hword, hbrace, hrules, hitems, hclose,
    hend, rfl, rfl, rfl⟩

/-- A source takes the marks of its entries, and no mark is left. -/
theorem file_yields {file : File} (h : Yields Parser.file c file d) :
    ∃ entries, c.marks = sourceMarks entries ∧ Lays c.levels file entries := by
  obtain ⟨word, brace, rules, items, close, c₁, c₂, c₃, c₄, hword, hbrace, hrules, hitems, hclose,
    hnil, hfileRules, hfileSeparators, hfileStarts⟩ := yields_file h
  have hopen := (expect_keyword hword).cons (expect_symbol hbrace)
  obtain ⟨defined, hdefined, htook, hspells⟩ :=
    repeated_entry nextRule_takes (many_yields nextRule_takes.shortens hrules)
  have hlevels : c₃.levels = c.levels := htook.levels.trans hopen.levels
  obtain ⟨entries, rfl, htook', hspells', hhead⟩ : ∃ entries : List Entry,
      items = entries.map Entry.item ∧ Took c₃ (entries.flatMap Entry.marks) c₄ ∧
      (∀ x ∈ entries, SpellsEntry c₃.levels x) ∧ ∀ x ∈ entries.head?, x.separator?.isSome := by
    obtain ⟨hdashes, hitems⟩ | ⟨rfl, rfl⟩ := hitems
    · exact items_yield hdashes hitems
    · exact ⟨[], rfl, .refl _, List.forall_mem_nil _, nofun⟩
  rw [hlevels] at hspells'
  rw [hopen.levels] at hspells
  have hall := hopen.trans (htook.trans (htook'.trans (expect_symbol hclose)))
  have hrule : ∀ x ∈ defined, x.rule?.isSome := by
    intro x hx
    have hmem : x.rule? ∈ rules.map some := hdefined ▸ List.mem_map_of_mem hx
    obtain ⟨r, -, hr⟩ := List.mem_map.1 hmem
    rw [← hr]
    rfl
  have hrules : rules = defined.filterMap Entry.rule? := by
    calc rules = (rules.map some).filterMap id := by simp
      _ = (defined.map Entry.rule?).filterMap id := by rw [hdefined]
      _ = defined.filterMap Entry.rule? := by rw [List.filterMap_map]; rfl
  refine ⟨defined ++ entries, ?_, ?_, ?_, ?_, ?_, fun front x back => separated_of_head hrule hhead⟩
  · rw [hall.marks, hnil, List.append_nil, sourceMarks, List.flatMap_append]
    simp only [List.cons_append, List.nil_append, List.append_assoc]
  · exact List.forall_mem_append.2 ⟨hspells, hspells'⟩
  · rw [hfileRules, hrules, List.filterMap_append, List.filterMap_map]
    rfl
  · have hnone := List.filterMap_eq_nil_iff.2 fun x hx => separator_of_rule (hrule x hx)
    rw [hfileSeparators, List.filterMap_append, hnone]
    exact List.filterMap_map
  · have hnone := List.filterMap_eq_nil_iff.2 fun x hx => start_of_rule (hrule x hx)
    rw [hfileStarts, List.filterMap_append, hnone]
    exact List.filterMap_map

end

end Parser

/-- The tokens of a source that is parsed are a spelling of what it is parsed as. -/
theorem parseFile_spelled {source : List Char} {file : File} (h : parseFile source = .ok file) :
    ∃ entries, Lays nestingLimit file entries ∧
      (Token.lex source).map Token.mark = sourceMarks entries := by
  obtain ⟨d, hfile⟩ := parseWith_eq_ok.1 h
  obtain ⟨entries, hmarks, hlays⟩ := Parser.file_yields hfile
  exact ⟨entries, hlays, hmarks⟩

end TextGrammar.Source
