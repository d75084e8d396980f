import TextGrammar.Proofs.Syntax.Expressions

/-! # Parsed statements and blocks are spelled by their tokens

A statement may end without a semicolon in front of a brace only, so the last one of a block
knows whether a value stands behind it. The arms of a branch are nested after all of them have
been taken, and each may take a semicolon then. -/

namespace TextGrammar.Source.Parser
open Token (Kind)

section
variable {c d : Cursor} {expr : Parser Expr} {block : Parser Block}

/-- Whether a statement or a list of them in front of a cursor is the last thing in its block. -/
def MayEnd (last : Bool) (d : Cursor) : Prop :=
  frontKind d.marks = some (.symbol .rightBrace) → last = true

theorem semicolon_yields {u : Unit} (h : Yields semicolon c u d) :
    ∃ stop, Took c stop d ∧ ∀ ⦃last⦄, MayEnd last d → Terminator last stop := by
  obtain ⟨b, c₁, hb, h⟩ := yields_bind.1 h
  obtain ⟨rfl, htook⟩ | ⟨rfl, rfl, -⟩ := accept_symbol hb
  · obtain ⟨rfl, rfl⟩ := yields_pure.1 h
    exact ⟨_, htook, fun _ _ => .semicolon⟩
  · obtain ⟨b, c₂, hb, h⟩ := yields_bind.1 h
    obtain ⟨rfl, rfl⟩ := at_yields hb
    split at h
    · rename_i hbrace
      obtain ⟨rfl, rfl⟩ := yields_pure.1 h
      refine ⟨[], .refl _, fun last hlast => ?_⟩
      obtain rfl := hlast (eq_of_beq hbrace)
      exact .none
    · cases h

/-- A statement is spelled by the marks it takes, as the last one of its block if a brace follows
it. -/
def TakesStmt (p : Parser Stmt) (c d : Cursor) : Prop :=
  ∀ ⦃s⦄, Yields p c s d → ∃ m ws, Took c (m :: ws) d ∧
    ∀ ⦃last⦄, MayEnd last d → Spells c.levels (.stmt last s) (m :: ws)

theorem declaration_takes (hexpr : TakesExpr expr)
    (hfront : frontKind c.marks = some (.keyword .letBinding)) :
    TakesStmt (declaration expr) c d := by
  intro s h
  obtain ⟨start, c₁, hstart, h⟩ := yields_bind.1 h
  obtain rfl := here_yields hstart
  obtain ⟨u, c₂, hu, h⟩ := yields_bind.1 h
  have hlet := advance_keyword hu hfront
  obtain ⟨mutable, c₃, hmutable, h⟩ := yields_bind.1 h
  have hmut : Took c₂ (if mutable then [.keyword .mutable] else []) c₃ := by
    obtain ⟨rfl, htook⟩ | ⟨rfl, rfl, -⟩ := accept_keyword hmutable
    · exact htook
    · exact .refl _
  obtain ⟨name, c₄, hname, h⟩ := yields_bind.1 h
  obtain ⟨t, c₅, ht, h⟩ := yields_bind.1 h
  obtain ⟨value, c₆, hvalue, h⟩ := yields_bind.1 h
  obtain ⟨u', c₇, hu', h⟩ := yields_bind.1 h
  obtain ⟨rfl, span, rfl⟩ := spanned_yields h
  have hhead := (hlet.cons hmut).trans ((identifier_yields hname).cons (expect_symbol ht))
  obtain ⟨ws, htook, hspells⟩ := hexpr hvalue
  obtain ⟨stop, hstop, hends⟩ := semicolon_yields hu'
  rw [hhead.levels] at hspells
  refine ⟨.keyword .letBinding, _, ?_, fun last hlast => .bind hspells (hends hlast)⟩
  have hall := hhead.trans (htook.trans hstop)
  simpa only [List.cons_append, List.append_assoc, List.nil_append] using hall

theorem assignment_takes (hexpr : TakesExpr expr) : TakesStmt (assignment expr) c d := by
  intro s h
  obtain ⟨start, c₁, hstart, h⟩ := yields_bind.1 h
  obtain rfl := here_yields hstart
  obtain ⟨name, c₂, hname, h⟩ := yields_bind.1 h
  obtain ⟨b, c₃, hb, h⟩ := yields_bind.1 h
  have hend : ∀ (mode : AssignMode) {e : Cursor}, Took c₂ [.sign (assignKind mode)] e →
      Yields (do
        let value ← expr
        semicolon
        return Stmt.assign (← spanFrom start) name mode value) e s d →
      ∃ m ws, Took c (m :: ws) d ∧
        ∀ ⦃last⦄, MayEnd last d → Spells c.levels (.stmt last s) (m :: ws) := by
    intro mode e hmode h
    obtain ⟨value, c₄, hvalue, h⟩ := yields_bind.1 h
    obtain ⟨u, c₅, hu, h⟩ := yields_bind.1 h
    obtain ⟨rfl, span, rfl⟩ := spanned_yields h
    have hhead := (identifier_yields hname).cons hmode
    obtain ⟨ws, htook, hspells⟩ := hexpr hvalue
    obtain ⟨stop, hstop, hends⟩ := semicolon_yields hu
    rw [hhead.levels] at hspells
    have hall : Took c (.name name.text :: .sign (assignKind mode) :: (ws ++ stop)) c₅ :=
      hhead.trans (htook.trans hstop)
    exact ⟨_, _, hall, fun last hlast => .assign hspells (hends hlast)⟩
  obtain ⟨rfl, hplus⟩ | ⟨rfl, rfl, -⟩ := accept_symbol hb
  · obtain ⟨mode, c₄, hmode, h⟩ := yields_bind.1 h
    obtain ⟨rfl, rfl⟩ := yields_pure.1 hmode
    exact hend .append hplus h
  · obtain ⟨t, c₄, ht, h⟩ := yields_bind.1 h
    obtain ⟨mode, c₅, hmode, h⟩ := yields_bind.1 h
    obtain ⟨rfl, rfl⟩ := yields_pure.1 hmode
    exact hend .set (expect_symbol ht) h

/-- A semicolon that may be left out. -/
theorem optional_yields {b : Bool} (h : Yields (accept (.symbol .semicolon)) c b d) :
    ∃ k ≤ 1, Took c (List.replicate k (.symbol .semicolon)) d := by
  obtain ⟨-, htook⟩ | ⟨-, rfl, -⟩ := accept_symbol h
  · exact ⟨1, Nat.le_refl _, htook⟩
  · exact ⟨0, Nat.zero_le _, .refl _⟩

theorem loop_takes (hexpr : TakesExpr expr) (hblock : TakesBlock block)
    (hfront : frontKind c.marks = some (.keyword .forLoop)) : TakesStmt (loop expr block) c d := by
  intro s h
  obtain ⟨first, c₁, hfirst, h⟩ := yields_bind.1 h
  obtain rfl := here_yields hfirst
  obtain ⟨u, c₂, hu, h⟩ := yields_bind.1 h
  obtain ⟨name, c₃, hname, h⟩ := yields_bind.1 h
  obtain ⟨t, c₄, ht, h⟩ := yields_bind.1 h
  obtain ⟨start, c₅, hstart, h⟩ := yields_bind.1 h
  obtain ⟨t', c₆, ht', h⟩ := yields_bind.1 h
  obtain ⟨stop, c₇, hstop, h⟩ := yields_bind.1 h
  obtain ⟨body, c₈, hbody, h⟩ := yields_bind.1 h
  obtain ⟨b, c₉, hb, h⟩ := yields_bind.1 h
  obtain ⟨rfl, span, rfl⟩ := spanned_yields h
  have hhead := (advance_keyword hu hfront).cons
    ((identifier_yields hname).cons (expect_keyword ht))
  obtain ⟨ws, htook, hstarts⟩ := hexpr hstart
  have hdots := expect_symbol ht'
  obtain ⟨ws', htook', hstops⟩ := hexpr hstop
  obtain ⟨ws'', htook'', hbodies⟩ := hblock hbody
  obtain ⟨k, hk, hend⟩ := optional_yields hb
  rw [hhead.levels] at hstarts
  rw [hdots.levels, htook.levels, hhead.levels] at hstops
  rw [htook'.levels, hdots.levels, htook.levels, hhead.levels] at hbodies
  have hall := hhead.trans (htook.trans (hdots.cons (htook'.trans (htook''.trans hend))))
  exact ⟨_, _, hall, fun last _ => .loop hstarts hstops hbodies hk⟩

/-- An arm takes the word in front of it, its condition and its block. -/
theorem arm_yields (hexpr : TakesExpr expr) (hblock : TakesBlock block) {a : Arm}
    (hfront : frontKind c.marks = some (.keyword .ifThen)) (h : Yields (arm expr block) c a d) :
    ∃ ws ws', Took c (.keyword .ifThen :: (ws ++ ws')) d ∧
      Spells c.levels (.expr a.condition) ws ∧ Spells c.levels (.block a.body) ws' := by
  obtain ⟨start, c₁, hstart, h⟩ := yields_bind.1 h
  obtain rfl := here_yields hstart
  obtain ⟨u, c₂, hu, h⟩ := yields_bind.1 h
  obtain ⟨condition, c₃, hcondition, h⟩ := yields_bind.1 h
  obtain ⟨body, c₄, hbody, h⟩ := yields_bind.1 h
  obtain ⟨rfl, rfl⟩ := yields_pure.1 h
  have hif := advance_keyword hu hfront
  obtain ⟨ws, htook, hspells⟩ := hexpr hcondition
  obtain ⟨ws', htook', hspells'⟩ := hblock hbody
  rw [hif.levels] at hspells
  rw [htook.levels, hif.levels] at hspells'
  exact ⟨ws, ws', hif.cons (htook.trans htook'), hspells, hspells'⟩

theorem nextArm_yields (hexpr : TakesExpr expr) (hblock : TakesBlock block) {o : Option Arm}
    (h : Yields (nextArm expr block) c o d) :
    (o = none ∧ c = d) ∨ ∃ a ws ws', o = some a ∧
      Took c (.keyword .otherwise :: .keyword .ifThen :: (ws ++ ws')) d ∧
      Spells c.levels (.expr a.condition) ws ∧ Spells c.levels (.block a.body) ws' := by
  obtain ⟨b, c₁, hb, h⟩ := yields_bind.1 h
  obtain ⟨rfl, rfl⟩ := at_yields hb
  obtain ⟨k, c₂, hk, h⟩ := yields_bind.1 h
  obtain ⟨rfl, rfl⟩ := peekAt_yields hk
  split at h
  · rename_i hfront
    obtain ⟨hfirst, hsecond⟩ := (Bool.and_eq_true _ _).mp hfront
    obtain ⟨u, c₃, hu, h⟩ := yields_bind.1 h
    obtain ⟨a, c₄, ha, h⟩ := yields_bind.1 h
    obtain ⟨rfl, rfl⟩ := yields_pure.1 h
    have helse := advance_keyword hu (eq_of_beq hfirst)
    have hif : frontKind c₃.marks = some (.keyword .ifThen) := by
      rw [← eq_of_beq hsecond, helse.marks, frontKind, List.head?_eq_getElem?]
      rfl
    obtain ⟨ws, ws', htook, hspells, hspells'⟩ := arm_yields hexpr hblock hif ha
    rw [helse.levels] at hspells hspells'
    exact .inr ⟨a, ws, ws', rfl, helse.cons htook, hspells, hspells'⟩
  · obtain ⟨rfl, rfl⟩ := yields_pure.1 h
    exact .inl ⟨rfl, rfl⟩

inductive Nested (no : Option Block) : List Arm → Option Block → Prop
  | nil : Nested no [] no
  | cons {span : Span} {a : Arm} {rest : List Arm} {inner : Option Block}
    (h : Nested no rest inner) :
    Nested no (a :: rest) (some (.mk [.branch span a.condition a.body inner] none))

theorem nestArms_yields {no inner : Option Block} {arms : List Arm}
    (h : Yields (nestArms no arms) c inner d) :
    Nested no arms inner ∧
      ∃ k ≤ arms.length, Took c (List.replicate k (.symbol .semicolon)) d := by
  induction arms generalizing inner d with
  | nil =>
    obtain ⟨rfl, rfl⟩ := yields_pure.1 h
    exact ⟨.nil, 0, Nat.le_refl _, .refl _⟩
  | cons a rest ih =>
    obtain ⟨inner', c₁, hinner, h⟩ := yields_bind.1 h
    obtain ⟨b, c₂, hb, h⟩ := yields_bind.1 h
    obtain ⟨span, c₃, hspan, h⟩ := yields_bind.1 h
    obtain rfl := spanFrom_yields hspan
    obtain ⟨rfl, rfl⟩ := yields_pure.1 h
    obtain ⟨hnested, k, hk, htook⟩ := ih hinner
    obtain ⟨k', hk', htook'⟩ := optional_yields hb
    refine ⟨.cons hnested, k + k', Nat.add_le_add hk hk', ?_⟩
    rw [List.replicate_add]
    exact htook.trans htook'

/-- The arms that are taken one after the other are the outer ones of the other branch. -/
theorem repeated_nextArm (hexpr : TakesExpr expr) (hblock : TakesBlock block) {arms : List Arm}
    (h : Repeated (nextArm expr block) c arms d) :
    ∃ ws, Took c ws d ∧ ∀ {no inner : Option Block} {ws' : List Mark},
      Spells c.levels (.otherwise 0 no) ws' → Nested no arms inner →
      Spells c.levels (.otherwise arms.length inner) (ws ++ ws') := by
  induction h with
  | stop h =>
    obtain ⟨-, rfl⟩ | ⟨_, _, _, ⟨⟩, -⟩ := nextArm_yields hexpr hblock h
    refine ⟨[], .refl _, fun hno hnested => ?_⟩
    cases hnested
    exact hno
  | more h _ ih =>
    obtain ⟨⟨⟩, -⟩ | ⟨a, ws, ws', ⟨⟩, htook, hcondition, hbody⟩ := nextArm_yields hexpr hblock h
    obtain ⟨rest, htook', harms⟩ := ih
    refine ⟨_, htook.trans htook', fun hno hnested => ?_⟩
    cases hnested with
    | cons hnested =>
      rw [← htook.levels] at hno
      have hinner := harms hno hnested
      rw [htook.levels] at hinner
      simp only [List.cons_append, List.append_assoc]
      exact .arm hcondition hbody hinner

theorem branch_takes (hexpr : TakesExpr expr) (hblock : TakesBlock block)
    (hfront : frontKind c.marks = some (.keyword .ifThen)) :
    TakesStmt (branch expr block) c d := by
  intro s h
  have hshortens : Shortens (nextArm expr block) := by
    intro c x d h
    obtain ⟨⟨⟩, -⟩ | ⟨_, _, _, -, htook, -⟩ := nextArm_yields hexpr hblock h
    exact htook.length_lt
  obtain ⟨a, c₁, ha, h⟩ := yields_bind.1 h
  obtain ⟨arms, c₂, harms, h⟩ := yields_bind.1 h
  obtain ⟨ws, ws', htook, hcondition, hbody⟩ := arm_yields hexpr hblock hfront ha
  obtain ⟨front, hfronts, hnest⟩ := repeated_nextArm hexpr hblock (many_yields hshortens harms)
  have hend : ∀ {no : Option Block} {e : Cursor} {ws'' : List Mark}, Took c₂ ws'' e →
      Spells c.levels (.otherwise 0 no) ws'' → Yields (do
        let no ← nestArms no arms
        let _ ← accept (.symbol .semicolon)
        return Stmt.branch (← spanFrom a.start) a.condition a.body no) e s d →
      ∃ m ws, Took c (m :: ws) d ∧
        ∀ ⦃last⦄, MayEnd last d → Spells c.levels (.stmt last s) (m :: ws) := by
    intro no e ws'' hno hspells h
    obtain ⟨inner, c₄, hinner, h⟩ := yields_bind.1 h
    obtain ⟨b, c₅, hb, h⟩ := yields_bind.1 h
    obtain ⟨rfl, span, rfl⟩ := spanned_yields h
    obtain ⟨hnested, k, hk, hsemicolons⟩ := nestArms_yields hinner
    obtain ⟨k', hk', hsemicolon⟩ := optional_yields hb
    rw [← htook.levels] at hspells
    have hotherwise := hnest hspells hnested
    rw [htook.levels] at hotherwise
    have hstmt : ∀ last, Spells c.levels (.stmt last (.branch span a.condition a.body inner)) _ :=
      fun last => .branch (k := k + k') hcondition hbody hotherwise (Nat.add_le_add hk hk')
    have hall := htook.trans (hfronts.trans (hno.trans (hsemicolons.trans hsemicolon)))
    rw [List.replicate_add] at hstmt
    simp only [List.cons_append, List.append_assoc] at hall hstmt
    exact ⟨_, _, hall, fun last _ => hstmt last⟩
  obtain ⟨b, c₃, hb, h⟩ := yields_bind.1 h
  obtain ⟨rfl, helse⟩ | ⟨rfl, rfl, -⟩ := accept_keyword hb
  · obtain ⟨no, c₄, hno, h⟩ := yields_bind.1 h
    obtain ⟨body, hbody, rfl⟩ := yields_map.1 hno
    obtain ⟨ws'', htook', hspells⟩ := hblock hbody
    rw [helse.levels, hfronts.levels, htook.levels] at hspells
    exact hend (helse.cons htook') (.otherwise hspells) h
  · obtain ⟨no, c₄, hno, h⟩ := yields_bind.1 h
    obtain ⟨rfl, rfl⟩ := yields_pure.1 hno
    exact hend (.refl _) .noOtherwise h

theorem stmt?_yields (hexpr : TakesExpr expr) (hblock : TakesBlock block) {o : Option Stmt}
    (h : Yields (stmt? expr block) c o d) :
    (o = none ∧ c = d) ∨ ∃ s m ws, o = some s ∧ Took c (m :: ws) d ∧
      m.kind ≠ .symbol .rightBrace ∧
      ∀ ⦃last⦄, MayEnd last d → Spells c.levels (.stmt last s) (m :: ws) := by
  -- A statement is taken after its first mark has been seen.
  have hsome : ∀ {p : Parser Stmt} {kind : Kind}, frontKind c.marks = some kind →
      kind ≠ .symbol .rightBrace → TakesStmt p c d → Yields (some <$> p) c o d →
      ∃ s m ws, o = some s ∧ Took c (m :: ws) d ∧ m.kind ≠ .symbol .rightBrace ∧
        ∀ ⦃last⦄, MayEnd last d → Spells c.levels (.stmt last s) (m :: ws) := by
    intro p kind hfront hkind htakes h
    obtain ⟨s, hs, rfl⟩ := yields_map.1 h
    obtain ⟨m, ws, htook, hspells⟩ := htakes hs
    rw [htook.marks] at hfront
    exact ⟨s, m, ws, rfl, htook, Option.some.inj hfront ▸ hkind, hspells⟩
  obtain ⟨k, c₁, hk, h⟩ := yields_bind.1 h
  obtain ⟨rfl, hfront⟩ := peek_yields hk
  split at h
  case h_1 => exact .inr (hsome hfront nofun (declaration_takes hexpr hfront) h)
  case h_2 => exact .inr (hsome hfront nofun (loop_takes hexpr hblock hfront) h)
  case h_3 => exact .inr (hsome hfront nofun (branch_takes hexpr hblock hfront) h)
  case h_4 =>
    obtain ⟨start, c₂, hstart, h⟩ := yields_bind.1 h
    obtain rfl := here_yields hstart
    obtain ⟨u, c₃, hu, h⟩ := yields_bind.1 h
    obtain ⟨u', c₄, hu', h⟩ := yields_bind.1 h
    obtain ⟨rfl, span, rfl⟩ := spanned_yields (f := fun span => some (Stmt.leave span)) h
    obtain ⟨stop, hstop, hends⟩ := semicolon_yields hu'
    exact .inr ⟨_, _, _, rfl, (advance_keyword hu hfront).cons hstop, nofun,
      fun last hlast => .leave (hends hlast)⟩
  case h_5 =>
    obtain ⟨k, c₂, hk, h⟩ := yields_bind.1 h
    obtain ⟨rfl, -⟩ := peekAt_yields hk
    split at h
    · exact .inr (hsome hfront nofun (assignment_takes hexpr) h)
    · exact .inr (hsome hfront nofun (assignment_takes hexpr) h)
    · obtain ⟨rfl, rfl⟩ := yields_pure.1 h
      exact .inl ⟨rfl, rfl⟩
  case h_6 =>
    obtain ⟨rfl, rfl⟩ := yields_pure.1 h
    exact .inl ⟨rfl, rfl⟩

/-- Only the last statement of a block stands in front of a brace. -/
theorem repeated_stmt? (hexpr : TakesExpr expr) (hblock : TakesBlock block) {ss : List Stmt}
    (h : Repeated (stmt? expr block) c ss d) :
    ∃ ws, Took c ws d ∧ ∀ ⦃last⦄, MayEnd last d → Spells c.levels (.stmts last ss) ws := by
  induction h with
  | stop h =>
    obtain ⟨-, rfl⟩ | ⟨_, _, _, ⟨⟩, -⟩ := stmt?_yields hexpr hblock h
    exact ⟨[], .refl _, fun _ _ => .noStmt⟩
  | @more c e d s ss h hrest ih =>
    obtain ⟨⟨⟩, -⟩ | ⟨_, m, ws, ⟨⟩, htook, -, hs⟩ := stmt?_yields hexpr hblock h
    obtain ⟨ws', htook', hss⟩ := ih
    refine ⟨_, htook.trans htook', fun last hlast => ?_⟩
    have hmay : MayEnd (last && ss.isEmpty) e := by
      intro hbrace
      cases hrest with
      | stop h' =>
        obtain ⟨-, rfl⟩ | ⟨_, _, _, ⟨⟩, -⟩ := stmt?_yields hexpr hblock h'
        rw [hlast hbrace]
        rfl
      | more h' _ =>
        obtain ⟨⟨⟩, -⟩ | ⟨_, m', _, -, htook'', hne, -⟩ := stmt?_yields hexpr hblock h'
        rw [htook''.marks] at hbrace
        exact absurd (Option.some.inj hbrace) hne
    have hrest' := hss hlast
    rw [htook.levels] at hrest'
    exact .stmt (hs hmay) hrest'

theorem blockBody_yields (hexpr : TakesExpr expr) (hblock : TakesBlock block) {b : Block}
    (h : Yields (blockBody expr block) c b d) :
    ∃ ws, Took c ws d ∧ Spells (c.levels + 1) (.block b) ws := by
  have hshortens : Shortens (stmt? expr block) := by
    intro c x d h
    obtain ⟨⟨⟩, -⟩ | ⟨_, _, _, -, htook, -⟩ := stmt?_yields hexpr hblock h
    exact htook.length_lt
  obtain ⟨t, c₁, ht, h⟩ := yields_bind.1 h
  obtain ⟨ss, c₂, hss, h⟩ := yields_bind.1 h
  have hopen := expect_symbol ht
  obtain ⟨ws, htook, hspells⟩ := repeated_stmt? hexpr hblock (many_yields hshortens hss)
  rw [hopen.levels] at hspells
  obtain ⟨atEnd, c₃, hatEnd, h⟩ := yields_bind.1 h
  obtain ⟨rfl, rfl⟩ := at_yields hatEnd
  split at h
  · obtain ⟨result, c₄, hresult, h⟩ := yields_bind.1 h
    obtain ⟨rfl, rfl⟩ := yields_pure.1 hresult
    obtain ⟨t', c₅, ht', h⟩ := yields_bind.1 h
    obtain ⟨rfl, rfl⟩ := yields_pure.1 h
    exact ⟨_, hopen.cons (htook.trans (expect_symbol ht')), .body (hspells fun _ => rfl)⟩
  · rename_i hbrace
    obtain ⟨result, c₄, hresult, h⟩ := yields_bind.1 h
    obtain ⟨e, he, rfl⟩ := yields_map.1 hresult
    obtain ⟨t', c₆, ht', h⟩ := yields_bind.1 h
    obtain ⟨rfl, rfl⟩ := yields_pure.1 h
    obtain ⟨ws', htook', hvalue⟩ := hexpr he
    rw [htook.levels, hopen.levels] at hvalue
    have hstmts : Spells c.levels (.stmts false ss) ws :=
      hspells fun heq => absurd (beq_iff_eq.2 heq) hbrace
    exact ⟨_, hopen.cons (htook.trans (htook'.trans (expect_symbol ht'))),
      .bodyValue hstmts hvalue⟩

end

/-- Expressions and blocks are spelled by the marks they take, however deep they are nested. -/
theorem expr_block_take (n : Nat) : TakesExpr (expr n) ∧ TakesBlock (block n) := by
  induction n with
  | zero => exact ⟨nofun, nofun⟩
  | succ n ih =>
    obtain ⟨hexpr, hblock⟩ := ih
    constructor
    · refine comparison_takes (fun c e d h => ?_) hexpr
      obtain ⟨c', d', hatom, hlevels, htook⟩ := nested_yields h
      obtain ⟨ws, hws, hspells⟩ := atom_yields hexpr hblock hatom
      exact ⟨ws, htook ws hws, hlevels ▸ hspells⟩
    · intro c b d h
      obtain ⟨c', d', hbody, hlevels, htook⟩ := nested_yields h
      obtain ⟨ws, hws, hspells⟩ := blockBody_yields hexpr hblock hbody
      exact ⟨ws, htook ws hws, hlevels ▸ hspells⟩

end TextGrammar.Source.Parser
