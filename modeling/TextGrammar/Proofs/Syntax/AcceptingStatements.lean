import TextGrammar.Proofs.Syntax.AcceptingAtoms
import TextGrammar.Proofs.Syntax.Statements

/-! # Spelled statements and blocks are accepted

A statement is accepted in front of another statement, the value of its block, or the closing
brace. The other branch of a branching statement is accepted in two parts: its arms, one after the
other, and the last block, around which the arms are put. -/

namespace TextGrammar.Source.Parser
open Token (Kind)
variable {top d : Nat} {ws ws' rest more : List Mark}

section
variable {expr : Parser Expr} {block : Parser Block} {span : Span} {name : Name}
  {value : Expr} {last : Bool} {stop : List Mark}

theorem accepts_semicolon (h : Terminator last stop)
    (hlast : last = true → frontKind rest = some (.symbol .rightBrace)) :
    Accepts top semicolon ⟨d, stop ++ rest⟩ ⟨d, rest⟩ fun _ => True := by
  cases h with
  | semicolon =>
    refine (accepts_accept rfl).bind ?_
    rintro _ rfl
    exact .pure trivial
  | none =>
    have hbrace := hlast rfl
    refine (accepts_accept_other (by rw [List.nil_append, hbrace]; nofun)).bind ?_
    rintro _ rfl
    refine accepts_at.bind ?_
    rintro _ rfl
    rw [List.nil_append, hbrace]
    exact .pure trivial

theorem accepts_some {α : Type} {p : Parser α} {v v' : View} {P : α → Prop}
    (h : Accepts top p v v' P) :
    Accepts top (some <$> p) v v' fun o => ∃ x, o = some x ∧ P x :=
  h.map fun x hx => ⟨x, rfl, hx⟩

theorem acceptsOne_bind {mutable : Bool}
    (hvalue : Accepts top expr ⟨d, ws ++ (stop ++ rest)⟩ ⟨d, stop ++ rest⟩
      fun x => x.bare = value.bare) (hstop : Terminator last stop)
    (hlast : last = true → frontKind rest = some (.symbol .rightBrace)) :
    AcceptsOne top (stmt? expr block) ⟨d, .keyword .letBinding ::
      ((if mutable then [.keyword .mutable] else []) ++
        .name name.text :: .symbol .assign :: (ws ++ (stop ++ rest)))⟩ ⟨d, rest⟩
      fun x => x.bare = (Stmt.bind span name mutable value).bare := by
  refine ⟨?_, accepts_peek.bind ?_⟩
  · simp only [List.length_cons, List.length_append]
    omega
  rintro _ rfl
  refine accepts_some ?_
  refine accepts_here.bind fun start _ => accepts_advance.bind fun _ _ => ?_
  have hmutable : Accepts top (accept (.keyword .mutable))
      ⟨d, (if mutable then [.keyword .mutable] else []) ++
        .name name.text :: .symbol .assign :: (ws ++ (stop ++ rest))⟩
      ⟨d, .name name.text :: .symbol .assign :: (ws ++ (stop ++ rest))⟩ (· = mutable) := by
    cases mutable with
    | false => exact accepts_accept_other nofun
    | true => exact accepts_accept rfl
  refine hmutable.bind ?_
  rintro _ rfl
  refine accepts_identifier.bind fun n hn => (accepts_expect rfl).bind fun _ _ => ?_
  refine hvalue.bind fun x hx => (accepts_semicolon hstop hlast).bind fun _ _ => ?_
  refine accepts_spanned fun _ => ?_
  rw [Stmt.bare, Stmt.bare, hn, hx]
  rfl

theorem acceptsOne_assign {mode : AssignMode}
    (hvalue : Accepts top expr ⟨d, ws ++ (stop ++ rest)⟩ ⟨d, stop ++ rest⟩
      fun x => x.bare = value.bare) (hstop : Terminator last stop)
    (hlast : last = true → frontKind rest = some (.symbol .rightBrace)) :
    AcceptsOne top (stmt? expr block)
      ⟨d, .name name.text :: .sign (assignKind mode) :: (ws ++ (stop ++ rest))⟩ ⟨d, rest⟩
      fun x => x.bare = (Stmt.assign span name mode value).bare := by
  have hstmt : Accepts top (some <$> assignment expr)
      ⟨d, .name name.text :: .sign (assignKind mode) :: (ws ++ (stop ++ rest))⟩ ⟨d, rest⟩
      fun o => ∃ x, o = some x ∧ x.bare = (Stmt.assign span name mode value).bare := by
    refine accepts_some ?_
    refine accepts_here.bind fun start _ => accepts_identifier.bind fun n hn => ?_
    have hend : Accepts top (do
        let value ← expr
        semicolon
        return Stmt.assign (← spanFrom start) n mode value) ⟨d, ws ++ (stop ++ rest)⟩ ⟨d, rest⟩
        fun x => x.bare = (Stmt.assign span name mode value).bare := by
      refine hvalue.bind fun x hx => (accepts_semicolon hstop hlast).bind fun _ _ => ?_
      refine accepts_spanned fun _ => ?_
      rw [Stmt.bare, Stmt.bare, hn, hx]
      rfl
    cases mode with
    | set =>
      refine (accepts_accept_other (by simp [Mark.kind, assignKind])).bind ?_
      rintro _ rfl
      exact (accepts_expect rfl).bind fun _ _ => .pure_bind hend
    | append =>
      refine (accepts_accept rfl).bind ?_
      rintro _ rfl
      exact .pure_bind hend
  refine ⟨?_, accepts_peek.bind ?_⟩
  · simp only [List.length_cons, List.length_append]
    omega
  rintro _ rfl
  refine (accepts_peekAt 1).bind ?_
  rintro _ rfl
  cases mode with
  | set => exact hstmt
  | append => exact hstmt

theorem acceptsOne_leave (hstop : Terminator last stop)
    (hlast : last = true → frontKind rest = some (.symbol .rightBrace)) :
    AcceptsOne top (stmt? expr block) ⟨d, .keyword .breakLoop :: (stop ++ rest)⟩ ⟨d, rest⟩
      fun x => x.bare = (Stmt.leave span).bare := by
  refine ⟨?_, accepts_peek.bind ?_⟩
  · simp only [List.length_cons, List.length_append]
    omega
  rintro _ rfl
  refine accepts_here.bind fun start _ => accepts_advance.bind fun _ _ => ?_
  exact (accepts_semicolon hstop hlast).bind fun _ _ => accepts_spanned fun _ => ⟨_, rfl, rfl⟩

/-- One of some semicolons is taken, if there is one. -/
theorem accepts_optional (k : Nat) (hrest : frontKind rest ≠ some (.symbol .semicolon)) :
    Accepts top (accept (.symbol .semicolon))
      ⟨d, List.replicate k (.symbol .semicolon) ++ rest⟩
      ⟨d, List.replicate (k - 1) (.symbol .semicolon) ++ rest⟩ fun _ => True := by
  cases k with
  | zero => exact (accepts_accept_other hrest).weaken fun _ _ => trivial
  | succ k => exact (accepts_accept rfl).weaken fun _ _ => trivial

theorem accepts_lastSemicolon {k : Nat} (hk : k ≤ 1)
    (hrest : frontKind rest ≠ some (.symbol .semicolon)) :
    Accepts top (accept (.symbol .semicolon))
      ⟨d, List.replicate k (.symbol .semicolon) ++ rest⟩ ⟨d, rest⟩ fun _ => True := by
  have h : Accepts top _ ⟨d, _⟩ _ _ := accepts_optional k hrest
  rwa [Nat.sub_eq_zero_of_le hk] at h

theorem acceptsOne_loop {k : Nat} {start stop : Expr} {body : Block} {mid : List Mark}
    (hstart : Accepts top expr ⟨d, ws⟩ ⟨d, .symbol .dotDot :: mid⟩ fun x => x.bare = start.bare)
    (hstop : Accepts top expr ⟨d, mid⟩ ⟨d, more⟩ fun x => x.bare = stop.bare)
    (hbody : Accepts top block ⟨d, more⟩
      ⟨d, List.replicate k (.symbol .semicolon) ++ rest⟩ fun x => x.bare = body.bare) (hk : k ≤ 1)
    (hrest : frontKind rest ≠ some (.symbol .semicolon)) (hlt : rest.length ≤ ws.length) :
    AcceptsOne top (stmt? expr block)
      ⟨d, .keyword .forLoop :: .name name.text :: .keyword .inRange :: ws⟩ ⟨d, rest⟩
      fun x => x.bare = (Stmt.loop span name start stop body).bare := by
  refine ⟨?_, accepts_peek.bind ?_⟩
  · simp only [List.length_cons]
    omega
  rintro _ rfl
  refine accepts_some ?_
  refine accepts_here.bind fun first _ => accepts_advance.bind fun _ _ => ?_
  refine accepts_identifier.bind fun n hn => (accepts_expect rfl).bind fun _ _ => ?_
  refine hstart.bind fun x hx => (accepts_expect rfl).bind fun _ _ => ?_
  refine hstop.bind fun y hy => hbody.bind fun b hb => ?_
  refine (accepts_lastSemicolon hk hrest).bind fun _ _ => accepts_spanned fun _ => ?_
  rw [Stmt.bare, Stmt.bare, hn, hx, hy, hb]
  rfl

theorem accepts_arm {condition : Expr} {yes : Block}
    (hcondition : Accepts top expr ⟨d, ws⟩ ⟨d, ws'⟩ fun x => x.bare = condition.bare)
    (hyes : Accepts top block ⟨d, ws'⟩ ⟨d, rest⟩ fun x => x.bare = yes.bare) :
    Accepts top (arm expr block) ⟨d, .keyword .ifThen :: ws⟩ ⟨d, rest⟩
      fun a => a.condition.bare = condition.bare ∧ a.body.bare = yes.bare := by
  refine accepts_here.bind fun start _ => accepts_advance.bind fun _ _ => ?_
  exact hcondition.bind fun x hx => hyes.bind fun b hb => .pure ⟨hx, hb⟩

theorem acceptsOne_arm {condition : Expr} {yes : Block}
    (hcondition : Accepts top expr ⟨d, ws⟩ ⟨d, ws'⟩ fun x => x.bare = condition.bare)
    (hyes : Accepts top block ⟨d, ws'⟩ ⟨d, rest⟩ fun x => x.bare = yes.bare)
    (hlt : rest.length ≤ ws.length) :
    AcceptsOne top (nextArm expr block) ⟨d, .keyword .otherwise :: .keyword .ifThen :: ws⟩
      ⟨d, rest⟩ fun a => a.condition.bare = condition.bare ∧ a.body.bare = yes.bare := by
  refine ⟨?_, accepts_at.bind ?_⟩
  · simp only [List.length_cons]
    omega
  rintro _ rfl
  refine (accepts_peekAt 1).bind ?_
  rintro _ rfl
  refine accepts_advance.bind fun _ _ => (accepts_arm hcondition hyes).bind fun a ha => ?_
  exact .pure ⟨a, rfl, ha⟩

theorem accepts_noArm (h : frontKind ws ≠ some (.keyword .otherwise) ∨
      ws[1]?.map Mark.kind ≠ some (.keyword .ifThen)) :
    Accepts top (nextArm expr block) ⟨d, ws⟩ ⟨d, ws⟩ fun o => o = none := by
  refine accepts_at.bind ?_
  rintro _ rfl
  refine (accepts_peekAt 1).bind ?_
  rintro _ rfl
  have hno : (frontKind ws == some (.keyword .otherwise) &&
      ws[1]?.map Mark.kind == some (.keyword .ifThen)) = false := by
    rwa [Bool.and_eq_false_iff, beq_eq_false_iff_ne, beq_eq_false_iff_ne]
  rw [hno]
  exact .pure rfl

theorem accepts_nestArms {no : Option Block} (arms : List Arm) (k : Nat)
    (hrest : frontKind rest ≠ some (.symbol .semicolon)) :
    Accepts top (nestArms no arms) ⟨d, List.replicate k (.symbol .semicolon) ++ rest⟩
      ⟨d, List.replicate (k - arms.length) (.symbol .semicolon) ++ rest⟩
      fun inner => Nested no arms inner := by
  induction arms with
  | nil => exact .pure .nil
  | cons a arms ih =>
    refine ih.bind fun inner hinner => (accepts_optional _ hrest).bind fun _ _ => ?_
    exact (accepts_spanFrom a.start).bind fun span _ => .pure (.cons hinner)

end

section
variable {n k f arms : Nat} {span : Span} {name : Name} {condition : Expr} {yes : Block}
  {no : Option Block} {last : Bool}

/-- An expression ends in front of a block. -/
theorem endsExpr_block (h : OpensBlock ws) (rest : List Mark) : EndsExpr (ws ++ rest) := by
  obtain ⟨ws, rfl⟩ := h
  exact endsExpr_cons (by decide) _

/-- The last block of a branching statement is accepted, if there is one. -/
inductive AcceptsElse (top n : Nat) : Option Block → List Mark → Prop
  | none : AcceptsElse top n none []
  | some {b : Block} {ws : List Mark} (h : AcceptsBlock top n b ws)
    (hopens : OpensBlock ws) :
    AcceptsElse top n (some b) (.keyword .otherwise :: ws)

/-- The arms in front of the last block of a branching statement are accepted one by one. Around
the last block they give the other branch. -/
def AcceptsOtherwise (top n arms : Nat) (no : Option Block) (ws : List Mark) : Prop :=
  ∃ final tail, AcceptsElse top n final tail ∧
    ∀ f d more, nestingLimit ≤ f + d → d + n ≤ top →
      frontKind more ≠ some (.keyword .otherwise) →
      AcceptsMany top (nextArm (expr f) (block f)) ⟨d, ws ++ more⟩ ⟨d, tail ++ more⟩ fun as =>
        as.length = arms ∧ ∀ b inner, b.map Block.bare = final.map Block.bare →
          Nested b as inner → inner.map Block.bare = no.map Block.bare

theorem AcceptsElse.otherwise (h : AcceptsElse top n no ws) : AcceptsOtherwise top n 0 no ws := by
  refine ⟨no, ws, h, fun f d more _ _ hmore => .stop (accepts_noArm ?_) ⟨rfl, ?_⟩⟩
  · cases h with
    | none => exact .inl hmore
    | some _ hopens =>
      obtain ⟨ws, rfl⟩ := hopens
      exact .inr nofun
  · rintro b inner hb ⟨⟩
    exact hb

theorem AcceptsOtherwise.arm (hcondition : AcceptsExpr top n condition ws)
    (hyes : AcceptsBlock top n yes ws') (hopens : OpensBlock ws')
    {ws'' : List Mark} (hno : AcceptsOtherwise top n arms no ws'') :
    AcceptsOtherwise top n (arms + 1) (some (.mk [.branch span condition yes no] none))
      (.keyword .otherwise :: .keyword .ifThen :: (ws ++ (ws' ++ ws''))) := by
  obtain ⟨final, tail, hfinal, hmany⟩ := hno
  refine ⟨final, tail, hfinal, fun f d more hf hd hmore => ?_⟩
  simp only [List.cons_append, List.append_assoc]
  refine .more (acceptsOne_arm (hcondition f d _ hf hd (endsExpr_block hopens _))
    (hyes f d _ hf hd) (by simp only [List.length_append]; omega)) ?_
  · rintro a ⟨ha, ha'⟩
    refine (hmany f d more hf hd hmore).weaken fun as has => ⟨congrArg Nat.succ has.1, ?_⟩
    intro b inner hb hnested
    cases hnested with
    | cons hnested =>
    have hinner := has.2 b _ hb hnested
    simp only [Option.map_some, Block.bare_mk, List.map_cons, Stmt.bare_branch, ha, ha', hinner]

structure EndsStmt (ws : List Mark) : Prop where
  semicolon : frontKind ws ≠ some (.symbol .semicolon)
  otherwise : frontKind ws ≠ some (.keyword .otherwise)

theorem acceptsOne_branch (hcondition : AcceptsExpr top n condition ws)
    (hyes : AcceptsBlock top n yes ws') (hopens : OpensBlock ws') {ws'' : List Mark}
    (hno : AcceptsOtherwise top n arms no ws'') (hk : k ≤ arms + 1) (hf : nestingLimit ≤ f + d)
    (hd : d + n ≤ top) (hrest : EndsStmt rest) :
    AcceptsOne top (stmt? (expr f) (block f)) ⟨d, .keyword .ifThen ::
      (ws ++ (ws' ++ (ws'' ++ (List.replicate k (.symbol .semicolon) ++ rest))))⟩ ⟨d, rest⟩
      fun x => x.bare = (Stmt.branch span condition yes no).bare := by
  obtain ⟨final, tail, hfinal, hmany⟩ := hno
  refine ⟨by simp only [List.length_cons, List.length_append]; omega, accepts_peek.bind ?_⟩
  rintro _ rfl
  refine accepts_some ?_
  refine (accepts_arm (hcondition f d _ hf hd (endsExpr_block hopens _))
    (hyes f d _ hf hd)).bind ?_
  rintro a ⟨ha, ha'⟩
  have hmore : frontKind (List.replicate k (.symbol .semicolon) ++ rest) ≠
      some (.keyword .otherwise) := by
    cases k with
    | zero => exact hrest.otherwise
    | succ k => nofun
  refine (accepts_many (hmany f d _ hf hd hmore)).bind ?_
  rintro as ⟨hlength, hnest⟩
  have hend : ∀ b : Option Block, b.map Block.bare = final.map Block.bare → Accepts top (do
        let no ← nestArms b as
        let _ ← accept (.symbol .semicolon)
        return Stmt.branch (← spanFrom a.start) a.condition a.body no)
      ⟨d, List.replicate k (.symbol .semicolon) ++ rest⟩ ⟨d, rest⟩
      fun x => x.bare = (Stmt.branch span condition yes no).bare := by
    intro b hb
    refine (accepts_nestArms as k hrest.semicolon).bind fun inner hinner => ?_
    refine (accepts_lastSemicolon (by omega) hrest.semicolon).bind fun _ _ =>
      accepts_spanned fun _ => ?_
    rw [Stmt.bare_branch, Stmt.bare_branch, ha, ha', hnest b inner hb hinner]
  cases hfinal with
  | none =>
    refine (accepts_accept_other hmore).bind ?_
    rintro _ rfl
    exact .pure_bind (hend none rfl)
  | some hb _ =>
    refine (accepts_accept rfl).bind ?_
    rintro _ rfl
    refine (accepts_some (hb f d _ hf hd)).bind ?_
    rintro _ ⟨b, rfl, hb⟩
    exact hend (some b) (congrArg some hb)

/-- The spelling of a statement is accepted in front of another one, of the value of its block, or
of the closing brace. -/
def AcceptsStmt (top n : Nat) (last : Bool) (s : Stmt) (ws : List Mark) : Prop :=
  ∀ f d more, nestingLimit ≤ f + d → d + n ≤ top → EndsStmt more →
    (last = true → frontKind more = some (.symbol .rightBrace)) →
    AcceptsOne top (stmt? (expr f) (block f)) ⟨d, ws ++ more⟩ ⟨d, more⟩ fun x => x.bare = s.bare

/-- The spelling of statements is accepted in front of the value of their block or the closing
brace. -/
def AcceptsStmts (top n : Nat) (last : Bool) (ss : List Stmt) (ws : List Mark) : Prop :=
  ∀ f d more, nestingLimit ≤ f + d → d + n ≤ top → EndsStmt more →
    (last = true → frontKind more = some (.symbol .rightBrace)) →
    Accepts top (stmt? (expr f) (block f)) ⟨d, more⟩ ⟨d, more⟩ (· = none) →
    AcceptsMany top (stmt? (expr f) (block f)) ⟨d, ws ++ more⟩ ⟨d, more⟩
      fun xs => xs.map Stmt.bare = ss.map Stmt.bare

theorem endsStmt_cons {m : Mark} (hsemicolon : m.kind ≠ .symbol .semicolon)
    (hotherwise : m.kind ≠ .keyword .otherwise) (ws : List Mark) : EndsStmt (m :: ws) :=
  ⟨fun heq => hsemicolon (Option.some.inj heq), fun heq => hotherwise (Option.some.inj heq)⟩

theorem OpensStmt.ends (h : OpensStmt ws) (rest : List Mark) : EndsStmt (ws ++ rest) := by
  obtain ⟨m, front, rfl, hm⟩ := h
  have hne : ∀ kind, kind ∉ stmtOpeners → kind ≠ .identifier → m.kind ≠ kind := by
    rintro _ hkind hname rfl
    obtain hm | ⟨hm, -⟩ := hm
    · exact hkind hm
    · exact hname hm
  exact endsStmt_cons (hne _ (by decide) nofun) (hne _ (by decide) nofun) _

theorem OpensExpr.ends (h : OpensExpr ws) (rest : List Mark) : EndsStmt (ws ++ rest) := by
  obtain ⟨m, front, rfl, hm, -⟩ := h
  have hne : ∀ kind, kind ∉ openers → m.kind ≠ kind := fun kind hkind heq => hkind (heq ▸ hm)
  exact endsStmt_cons (hne _ (by decide)) (hne _ (by decide)) _

theorem acceptsStmts_nil : AcceptsStmts top n last [] [] :=
  fun _ _ _ _ _ _ _ hnone => .stop hnone rfl

theorem AcceptsStmt.cons {s : Stmt} {ss : List Stmt}
    (hs : AcceptsStmt top n (last && ss.isEmpty) s ws) (hss : AcceptsStmts top n last ss ws')
    (hws' : ss = [] ∧ ws' = [] ∨ ss ≠ [] ∧ OpensStmt ws') :
    AcceptsStmts top n last (s :: ss) (ws ++ ws') := by
  intro f d more hf hd hmore hlast hnone
  rw [List.append_assoc]
  have hends : EndsStmt (ws' ++ more) := by
    obtain ⟨-, rfl⟩ | ⟨-, hopens⟩ := hws'
    · exact hmore
    · exact hopens.ends more
  have hlast' : (last && ss.isEmpty) = true →
      frontKind (ws' ++ more) = some (.symbol .rightBrace) := by
    intro h
    obtain ⟨hend, hempty⟩ := (Bool.and_eq_true _ _).mp h
    obtain ⟨-, rfl⟩ | ⟨hne, -⟩ := hws'
    · exact hlast hend
    · exact absurd (List.isEmpty_iff.1 hempty) hne
  refine .more (hs f d _ hf hd hends hlast') fun x hx => ?_
  refine (hss f d more hf hd hmore hlast hnone).weaken fun xs hxs => ?_
  rw [List.map_cons, List.map_cons, hx, hxs]

/-- The value of a block is no statement. -/
theorem accepts_noStmt {expr : Parser Expr} {block : Parser Block} (h : OpensExpr ws)
    (hrest : frontKind rest ∉ namers) :
    Accepts top (stmt? expr block) ⟨d, ws ++ rest⟩ ⟨d, ws ++ rest⟩ (· = none) := by
  refine accepts_peek.bind ?_
  rintro _ rfl
  obtain ⟨m, front, rfl, hm, hname⟩ := h
  rw [List.cons_append, frontKind_cons]
  cases hkind : m.kind with
  | identifier =>
    refine (accepts_peekAt 1).bind ?_
    rintro _ rfl
    have hnot := hname hkind rest hrest
    rw [frontKind, List.head?_eq_getElem?] at hnot
    rw [List.getElem?_cons_succ]
    split
    · exact absurd (by rw [‹Option.map _ _ = _›]; decide) hnot
    · exact absurd (by rw [‹Option.map _ _ = _›]; decide) hnot
    · exact .pure rfl
  | keyword k =>
    rw [hkind] at hm
    cases k with
    | letBinding | forLoop | ifThen | breakLoop => exact absurd hm (by decide)
    | _ => exact .pure rfl
  | _ => exact .pure rfl

theorem accepts_noStmt_brace {expr : Parser Expr} {block : Parser Block} :
    Accepts top (stmt? expr block) ⟨d, .symbol .rightBrace :: rest⟩
      ⟨d, .symbol .rightBrace :: rest⟩ (· = none) := by
  refine accepts_peek.bind ?_
  rintro _ rfl
  exact .pure rfl

/-- A block takes a level. -/
theorem acceptsBlock_of {b : Block} (h : ∀ f d rest, nestingLimit ≤ f + d → d + n ≤ top →
      Accepts top (blockBody (expr f) (block f)) ⟨d, ws ++ rest⟩ ⟨d, rest⟩
        fun x => x.bare = b.bare) : AcceptsBlock top (n + 1) b ws := by
  intro f d rest hf hd
  cases f with
  | zero => exact .tooDeep (by omega)
  | succ f => exact accepts_nested (by omega) (h f (d + 1) rest (by omega) (by omega))

theorem AcceptsStmts.body {ss : List Stmt} (h : AcceptsStmts top n true ss ws) :
    AcceptsBlock top (n + 1) (.mk ss none)
      (.symbol .leftBrace :: (ws ++ [.symbol .rightBrace])) := by
  refine acceptsBlock_of fun f d rest hf hd => ?_
  simp only [List.cons_append, List.append_assoc, List.nil_append]
  refine (accepts_expect rfl).bind fun _ _ => ?_
  refine (accepts_many (h f d _ hf hd (endsStmt_cons (m := .symbol .rightBrace) nofun nofun _)
    (fun _ => rfl) accepts_noStmt_brace)).bind fun xs hxs => accepts_at.bind ?_
  rintro _ rfl
  refine .pure_bind ((accepts_expect rfl).bind fun _ _ => .pure ?_)
  rw [Block.bare_mk, Block.bare_mk, hxs]

theorem AcceptsStmts.bodyValue {ss : List Stmt} {e : Expr} (h : AcceptsStmts top n false ss ws)
    (hvalue : AcceptsExpr top n e ws') (hopens : OpensExpr ws') :
    AcceptsBlock top (n + 1) (.mk ss (some e))
      (.symbol .leftBrace :: (ws ++ (ws' ++ [.symbol .rightBrace]))) := by
  refine acceptsBlock_of fun f d rest hf hd => ?_
  simp only [List.cons_append, List.append_assoc, List.nil_append]
  refine (accepts_expect rfl).bind fun _ _ => ?_
  have hmany := h f d (ws' ++ .symbol .rightBrace :: rest) hf hd (hopens.ends _) nofun
    (accepts_noStmt hopens (by simp [namers, Mark.kind]))
  refine (accepts_many hmany).bind fun xs hxs => ?_
  have hbrace : frontKind (ws' ++ .symbol .rightBrace :: rest) ≠ some (.symbol .rightBrace) := by
    obtain ⟨m, front, rfl, hm⟩ := hopens.front_ne (by decide : Kind.symbol .rightBrace ∉ openers)
    exact fun heq => hm (Option.some.inj heq)
  refine (accepts_at_other hbrace).bind ?_
  rintro _ rfl
  refine (accepts_some (hvalue f d _ hf hd (endsExpr_cons (by decide) _))).bind ?_
  rintro _ ⟨x, rfl, hx⟩
  refine (accepts_expect rfl).bind fun _ _ => .pure ?_
  rw [Block.bare_mk, Block.bare_mk, hxs, Option.map_some, Option.map_some, hx]

end

/-- An expression ends in front of the end of a statement. -/
theorem endsExpr_terminator {last : Bool} {stop : List Mark} (h : Terminator last stop)
    (hlast : last = true → frontKind rest = some (.symbol .rightBrace)) :
    EndsExpr (stop ++ rest) := by
  cases h with
  | semicolon => exact endsExpr_cons (by decide) _
  | none =>
    refine endsExpr_of_front fun kind hkind heq => ?_
    obtain rfl := Option.some.inj ((hlast rfl).symm.trans heq)
    exact absurd hkind (by decide)

def Accepted (top n : Nat) : Phrase → List Mark → Prop
  | .expr e => AcceptsExpr top n e
  | .sum k e => AcceptsSum top n k e
  | .product k e => AcceptsProduct top n k e
  | .operand k e => AcceptsOperand top n k e
  | .atom e => AcceptsAtom top n e
  | .entry g => AcceptsEntry top n g
  | .block b => AcceptsBlock top n b
  | .stmts last ss => AcceptsStmts top n last ss
  | .stmt last s => AcceptsStmt top n last s
  | .otherwise arms no => AcceptsOtherwise top n arms no

/-- An expression or a block takes a level. -/
theorem spells_pos {n : Nat} {phrase : Phrase} (h : Spells n phrase ws) :
    match phrase with
    | .expr _ | .sum _ _ | .product _ _ | .operand _ _ | .atom _ | .block _ => 0 < n
    | _ => True := by
  induction h with
  | sumAlone _ ih | productAlone _ ih | operandAlone _ ih | atomAlone _ ih => exact ih
  | comparison _ _ _ ih _ | sum _ _ _ _ ih _ | product _ _ _ _ ih _ => exact ih
  | index _ _ _ ih _ | field _ _ ih => exact ih
  | _ => first | trivial | exact Nat.succ_pos _

theorem spells_accepted {n : Nat} {phrase : Phrase} (h : Spells n phrase ws) :
    Accepted top n phrase ws := by
  induction h with
  | sumAlone h ih => exact AcceptsSum.expr (spells_pos h) ih
  | comparison h hop _ ih ih' => exact AcceptsSum.comparison (spells_pos h) ih hop ih'
  | productAlone _ ih => exact AcceptsProduct.sumAlone ih
  | sum _ hop h hlevel ih ih' => exact AcceptsProduct.sum ih hop ih' (spells_pos h) hlevel
  | operandAlone _ ih => exact AcceptsOperand.productAlone ih
  | product _ hop h hlevel ih ih' => exact AcceptsOperand.product ih hop ih' (spells_pos h) hlevel
  | atomAlone _ ih => exact AcceptsAtom.operand ih
  | index _ h hlevel ih ih' => exact AcceptsExpr.index ih ih' (spells_pos h) hlevel
  | field _ hlevel ih => exact AcceptsOperand.field ih hlevel
  | number h => exact acceptsAtom_of fun _ _ _ _ _ _ => accepts_numeral h
  | str => exact acceptsAtom_of fun _ _ _ _ _ _ => accepts_str
  | true => exact acceptsAtom_of fun _ _ _ _ _ _ => accepts_true
  | false => exact acceptsAtom_of fun _ _ _ _ _ _ => accepts_false
  | null => exact acceptsAtom_of fun _ _ _ _ _ _ => accepts_null
  | name => exact acceptsAtom_of fun _ _ _ _ _ hrest => accepts_name hrest
  | call hlength hitems hws ih =>
    exact acceptsAtom_call hlength ih (fun x hx => opensExpr (hitems x hx)) hws
  | parens h ih =>
    refine acceptsAtom_of fun f d rest hf hd _ => ?_
    simp only [List.cons_append, List.append_assoc, List.nil_append]
    exact accepts_parens (ih f d _ hf hd (endsExpr_cons (by decide) _))
  | list hlength hitems hws ih =>
    exact acceptsAtom_list hlength ih (fun x hx => opensExpr (hitems x hx)) hws
  | record hlength hitems hws ih =>
    exact acceptsAtom_record hlength ih (fun x hx => opensEntry (hitems x hx)) hws
  | entry _ ih =>
    exact fun f d rest hf hd hrest => accepts_recordField (ih f d rest hf hd hrest)
  | blockValue h hne ih =>
    obtain ⟨ws, rfl, hopens⟩ := opensBody h hne
    exact acceptsAtom_of fun f d rest hf hd _ =>
      accepts_block (hopens.append rest) (ih f d rest hf hd)
  | body _ ih => exact AcceptsStmts.body ih
  | bodyValue _ h ih ih' => exact AcceptsStmts.bodyValue ih ih' (opensExpr h)
  | noStmt => exact acceptsStmts_nil
  | stmt hs hss ih ih' => exact AcceptsStmt.cons ih ih' (opensStmts_or_nil hss)
  | bind _ hstop ih =>
    intro f d more hf hd _ hlast
    simp only [List.cons_append, List.append_assoc]
    exact acceptsOne_bind (ih f d _ hf hd (endsExpr_terminator hstop hlast)) hstop hlast
  | assign _ hstop ih =>
    intro f d more hf hd _ hlast
    simp only [List.cons_append, List.append_assoc]
    exact acceptsOne_assign (ih f d _ hf hd (endsExpr_terminator hstop hlast)) hstop hlast
  | leave hstop => exact fun f d more hf hd _ hlast => acceptsOne_leave hstop hlast
  | loop h h' h'' hk ih ih' ih'' =>
    intro f d more hf hd hmore _
    simp only [List.cons_append, List.append_assoc]
    exact acceptsOne_loop (ih f d _ hf hd (endsExpr_cons (by decide) _))
      (ih' f d _ hf hd (endsExpr_block (opensBlock h'') _)) (ih'' f d _ hf hd) hk hmore.semicolon
      (by simp only [List.length_cons, List.length_append]; omega)
  | branch h h' h'' hk ih ih' ih'' =>
    intro f d more hf hd hmore _
    simp only [List.cons_append, List.append_assoc]
    exact acceptsOne_branch ih ih' (opensBlock h') ih'' hk hf hd hmore
  | noOtherwise => exact AcceptsElse.none.otherwise
  | otherwise h ih => exact (AcceptsElse.some ih (opensBlock h)).otherwise
  | arm h h' _ ih ih' ih'' => exact AcceptsOtherwise.arm ih ih' (opensBlock h') ih''

end TextGrammar.Source.Parser
