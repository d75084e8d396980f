import TextGrammar.Proofs.Display.Sources
import TextGrammar.Proofs.Source.Ensures

/-! # Parsed sources are well-formed

In the tree of a source all names are identifiers, a choice has two alternatives at least, and a
block that stands for a value is not empty: empty braces are read as a record there. -/

namespace TextGrammar.Source
open Token (isName)

mutual

inductive Expr.WellFormed : Expr → Prop
  | int {span : Span} {n : Int64} : Expr.WellFormed (.int span n)
  | float {span : Span} {x : Float} : Expr.WellFormed (.float span x)
  | str {span : Span} {s : String} : Expr.WellFormed (.str span s)
  | bool {span : Span} {b : Bool} : Expr.WellFormed (.bool span b)
  | null {span : Span} : Expr.WellFormed (.null span)
  | name {span : Span} {text : String} (hname : isName text.toList = true) :
    Expr.WellFormed (.name span text)
  | index {span : Span} {base position : Expr} (hbase : base.WellFormed)
    (hposition : position.WellFormed) : Expr.WellFormed (.index span base position)
  | field {span : Span} {base : Expr} {name : Name} (hbase : base.WellFormed)
    (hname : isName name.text.toList = true) : Expr.WellFormed (.field span base name)
  | call {span : Span} {callee : Name} {arguments : List Expr}
    (hname : isName callee.text.toList = true) (harguments : ∀ e ∈ arguments, e.WellFormed) :
    Expr.WellFormed (.call span callee arguments)
  | binary {span : Span} {op : Operator} {lhs rhs : Expr} (hlhs : lhs.WellFormed)
    (hrhs : rhs.WellFormed) : Expr.WellFormed (.binary span op lhs rhs)
  | list {span : Span} {items : List Expr} (hitems : ∀ e ∈ items, e.WellFormed) :
    Expr.WellFormed (.list span items)
  | record {span : Span} {fields : List (Name × Expr)}
    (hnames : ∀ f ∈ fields, isName f.1.text.toList = true)
    (hvalues : ∀ f ∈ fields, f.2.WellFormed) : Expr.WellFormed (.record span fields)
  | block {span : Span} {body : Block} (hne : body ≠ .mk [] none) (hbody : body.WellFormed) :
    Expr.WellFormed (.block span body)

inductive Block.WellFormed : Block → Prop
  | mk {stmts : List Stmt} {result : Option Expr} (hstmts : ∀ s ∈ stmts, s.WellFormed)
    (hresult : ∀ e ∈ result, e.WellFormed) : Block.WellFormed (.mk stmts result)

inductive Stmt.WellFormed : Stmt → Prop
  | bind {span : Span} {name : Name} {mutable : Bool} {value : Expr}
    (hname : isName name.text.toList = true) (hvalue : value.WellFormed) :
    Stmt.WellFormed (.bind span name mutable value)
  | assign {span : Span} {name : Name} {mode : AssignMode} {value : Expr}
    (hname : isName name.text.toList = true) (hvalue : value.WellFormed) :
    Stmt.WellFormed (.assign span name mode value)
  | loop {span : Span} {name : Name} {start stop : Expr} {body : Block}
    (hname : isName name.text.toList = true) (hstart : start.WellFormed)
    (hstop : stop.WellFormed) (hbody : body.WellFormed) :
    Stmt.WellFormed (.loop span name start stop body)
  | branch {span : Span} {condition : Expr} {yes : Block} {no : Option Block}
    (hcondition : condition.WellFormed) (hyes : yes.WellFormed)
    (hno : ∀ b ∈ no, b.WellFormed) : Stmt.WellFormed (.branch span condition yes no)
  | leave {span : Span} : Stmt.WellFormed (.leave span)

end

inductive Pattern.WellFormed : Pattern → Prop
  | name {span : Span} {text : String} : Pattern.WellFormed (.name span text)
  | literal {span : Span} {text : String} : Pattern.WellFormed (.literal span text)
  | sequence {span : Span} {fields : List (Option Name × Pattern)} {action : Option Expr}
    (hfields : ∀ f ∈ fields, f.2.WellFormed) (haction : ∀ e ∈ action, e.WellFormed) :
    Pattern.WellFormed (.sequence span fields action)
  | repetition {span : Span} {body : Pattern} (hbody : body.WellFormed) :
    Pattern.WellFormed (.repetition span body)
  | choice {span : Span} {alternatives : List Pattern} (hlength : 2 ≤ alternatives.length)
    (halternatives : ∀ p ∈ alternatives, p.WellFormed) :
    Pattern.WellFormed (.choice span alternatives)
  | negation {span : Span} {body : Pattern} (hbody : body.WellFormed) :
    Pattern.WellFormed (.negation span body)
  | rename {span : Span} {body : Pattern} {newName : Name} (hbody : body.WellFormed) :
    Pattern.WellFormed (.rename span body newName)

def Rule.WellFormed (r : Rule) : Prop := isName r.name.text.toList = true ∧ r.body.WellFormed

theorem Expr.WellFormed.withSpan {e : Expr} (h : e.WellFormed) (span : Span) :
    (e.withSpan span).WellFormed := by
  cases h <;> constructor <;> assumption

theorem Pattern.WellFormed.withSpan {p : Pattern} (h : p.WellFormed) (span : Span) :
    (p.withSpan span).WellFormed := by
  cases h <;> constructor <;> assumption

namespace Parser

theorem ensures_identifier : Ensures identifier fun n => isName n.text.toList = true := by
  refine (ensures_expect .identifier).bind fun t ht => .pure ?_
  rw [String.toList_ofList]
  exact ht.2 ht.1

theorem ensures_string : Ensures string fun _ => True := by
  refine (ensures_expect .string).bind fun t _ => ?_
  split
  · exact .pure trivial
  · exact ensures_throw _

theorem ensures_number (t : Token) (negative : Bool) (span : Span) :
    Ensures (number t negative span) Expr.WellFormed := by
  unfold number
  dsimp only
  split
  · split
    · exact .pure .float
    · exact ensures_throw _
  · split
    · exact .pure .int
    · exact ensures_throw _

/-- A parser of blocks yields the empty block only if the second token is a closing brace. -/
def EndsAtBrace (block : Parser Block) : Prop :=
  ∀ ⦃c d : Cursor⦄, Yields block c (.mk [] none) d →
    c.rest[1]?.map Token.kind = some (.symbol .rightBrace)

section
variable {expr : Parser Expr} {block : Parser Block}

theorem ensures_recordField (hexpr : Ensures expr Expr.WellFormed) :
    Ensures (recordField expr) fun f => isName f.1.text.toList = true ∧ f.2.WellFormed :=
  ensures_identifier.bind fun _ hname => (ensures_expect _).bind fun _ _ =>
    hexpr.bind fun _ he => .pure ⟨hname, he⟩

theorem yields_startsRecord {c d : Cursor} {b : Bool} (h : Yields startsRecord c b d) :
    d = c ∧ (b = false → c.rest[1]?.map Token.kind ≠ some (.symbol .rightBrace)) := by
  cases h
  refine ⟨rfl, fun hno => ?_⟩
  rw [Bool.or_eq_false_iff, beq_eq_false_iff_ne] at hno
  exact hno.1

/-- Braces that do not start a record hold something. -/
theorem ensures_braces (hexpr : Ensures expr Expr.WellFormed)
    (hblock : Ensures block Block.WellFormed) (hempty : EndsAtBrace block) (start : Span) :
    Ensures (do
      if ← startsRecord then
        advance
        let fields ← listUntil (.symbol .rightBrace) (recordField expr)
        return Expr.record (← spanFrom start) fields
      else
        let body ← block
        return Expr.block (← spanFrom start) body) Expr.WellFormed := by
  intro c d e hc h
  obtain ⟨opens, c, hopens, h⟩ := yields_bind.1 h
  obtain ⟨rfl, hsecond⟩ := yields_startsRecord hopens
  cases opens with
  | true =>
    have hrecord : Ensures (do
        advance
        let fields ← listUntil (.symbol .rightBrace) (recordField expr)
        return Expr.record (← spanFrom start) fields) Expr.WellFormed :=
      ensures_advance.bind fun _ _ =>
        (ensures_listUntil (ensures_recordField hexpr)).bind fun fields hfields =>
          (ensures_spanFrom start).bind fun _ _ =>
            .pure (.record (fun f hf => (hfields f hf).1) fun f hf => (hfields f hf).2)
    exact hrecord hc h
  | false =>
    obtain ⟨body, c', hbody, h⟩ := yields_bind.1 h
    have hne : body ≠ .mk [] none := by
      rintro rfl
      exact hsecond rfl (hempty hbody)
    obtain ⟨hc', hwell⟩ := hblock hc hbody
    exact (ensures_spanFrom start).bind (fun _ _ => .pure (.block hne hwell)) hc' h

theorem ensures_atom (hexpr : Ensures expr Expr.WellFormed)
    (hblock : Ensures block Block.WellFormed) (hempty : EndsAtBrace block) :
    Ensures (atom expr block) Expr.WellFormed := by
  refine ensures_here.bind fun start _ => ensures_peek.bind fun k _ => ?_
  split
  · exact (ensures_expect _).bind fun t _ => ensures_number t false _
  · exact ensures_string.bind fun s _ => (ensures_spanFrom start).bind fun _ _ => .pure .str
  · exact ensures_advance.bind fun _ _ => (ensures_spanFrom start).bind fun _ _ => .pure .bool
  · exact ensures_advance.bind fun _ _ => (ensures_spanFrom start).bind fun _ _ => .pure .bool
  · exact ensures_advance.bind fun _ _ => (ensures_spanFrom start).bind fun _ _ => .pure .null
  · refine ensures_identifier.bind fun name hname => (ensures_accept _).bind fun _ _ =>
      .ite (fun _ => ?_) fun _ => ?_
    · exact (ensures_listUntil hexpr).bind fun es hes =>
        (ensures_spanFrom start).bind fun _ _ => .pure (.call hname hes)
    · exact (ensures_spanFrom start).bind fun _ _ => .pure (.name hname)
  · exact ensures_advance.bind fun _ _ => hexpr.bind fun e he => (ensures_expect _).bind fun _ _ =>
      (ensures_spanFrom start).bind fun span _ => .pure (he.withSpan span)
  · exact ensures_advance.bind fun _ _ => (ensures_listUntil hexpr).bind fun es hes =>
      (ensures_spanFrom start).bind fun _ _ => .pure (.list hes)
  · exact ensures_braces hexpr hblock hempty start
  · refine (ensures_peekAt 1).bind fun _ _ => .ite (fun _ => ?_) fun _ => ensures_unexpected _
    exact ensures_advance.bind fun _ _ => (ensures_expect _).bind fun t _ =>
      ensures_number t true _
  · exact ensures_unexpected _

theorem wellFormed_foldl {rest : List (Operator × Expr)} {first : Expr} (hfirst : first.WellFormed)
    (hrest : ∀ x ∈ rest, x.2.WellFormed) :
    (rest.foldl (fun lhs x => binary x.1 lhs x.2) first).WellFormed := by
  induction rest generalizing first with
  | nil => exact hfirst
  | cons x rest ih =>
    have hparts := List.forall_mem_cons.1 hrest
    exact ih (.binary hfirst hparts.1) hparts.2

theorem ensures_chain (operator? : Option Token.Kind → Option Operator) {operand : Parser Expr}
    (h : Ensures operand Expr.WellFormed) : Ensures (chain operator? operand) Expr.WellFormed := by
  refine ensures_keepDepth (h.bind fun first hfirst =>
    (ensures_many (P := fun x : Operator × Expr => x.2.WellFormed) ?_).bind fun rest hrest =>
      .pure (wellFormed_foldl hfirst hrest))
  refine ensures_peek.bind fun k _ => ?_
  split
  · exact ensures_advance.bind fun _ _ => ensures_descend.bind fun _ _ => h.bind fun e he =>
      .pure fun x hx => by cases hx; exact he
  · exact ensures_none

def Suffix.WellFormed (s : Suffix) : Prop :=
  ∀ base : Expr, base.WellFormed → (s.apply base).WellFormed

theorem wellFormed_suffixes {suffixes : List Suffix} {first : Expr} (hfirst : first.WellFormed)
    (h : ∀ s ∈ suffixes, s.WellFormed) : (suffixes.foldl Suffix.apply first).WellFormed := by
  induction suffixes generalizing first with
  | nil => exact hfirst
  | cons s suffixes ih =>
    have hparts := List.forall_mem_cons.1 h
    exact ih (hparts.1 first hfirst) hparts.2

theorem ensures_postfixed {atom : Parser Expr} (hatom : Ensures atom Expr.WellFormed)
    (hexpr : Ensures expr Expr.WellFormed) : Ensures (postfixed atom expr) Expr.WellFormed := by
  have hstep : Ensures (do
      if ← at? (.symbol .leftBracket) then
        descend
        advance
        let position ← expr
        let _ ← expect (.symbol .rightBracket)
        return some (Suffix.index position (← last))
      else if ← at? (.symbol .dot) then
        descend
        advance
        let name ← identifier
        return some (Suffix.field name (← last))
      else return none) fun o => ∀ s ∈ o, s.WellFormed := by
    refine (ensures_at _).bind fun _ _ => .ite (fun _ => ?_) fun _ => (ensures_at _).bind fun _ _ =>
      .ite (fun _ => ?_) fun _ => ensures_none
    · refine ensures_descend.bind fun _ _ => ensures_advance.bind fun _ _ => hexpr.bind
        fun position hposition => (ensures_expect _).bind fun _ _ => ensures_last.bind fun _ _ => ?_
      refine .pure fun s hs => ?_
      cases hs
      exact fun base hbase => .index hbase hposition
    · refine ensures_descend.bind fun _ _ => ensures_advance.bind fun _ _ =>
        ensures_identifier.bind fun name hname => ensures_last.bind fun _ _ => ?_
      refine .pure fun s hs => ?_
      cases hs
      exact fun base hbase => .field hbase hname
  exact ensures_keepDepth (hatom.bind fun first hfirst => (ensures_many hstep).bind
    fun suffixes hsuffixes => .pure (wellFormed_suffixes hfirst hsuffixes))

theorem ensures_comparison {atom : Parser Expr} (hatom : Ensures atom Expr.WellFormed)
    (hexpr : Ensures expr Expr.WellFormed) : Ensures (comparison atom expr) Expr.WellFormed := by
  have hsum := ensures_chain sum? (ensures_chain product? (ensures_postfixed hatom hexpr))
  refine hsum.bind fun lhs hlhs => ensures_peek.bind fun k _ => ?_
  split
  · exact ensures_advance.bind fun _ _ => hsum.bind fun rhs hrhs => .pure (.binary hlhs hrhs)
  · exact .pure hlhs

theorem ensures_semicolon : Ensures semicolon fun _ => True := by
  refine (ensures_accept _).bind fun _ _ => .ite (fun _ => .pure trivial) fun _ => ?_
  exact (ensures_at _).bind fun _ _ => .ite (fun _ => .pure trivial) fun _ => ensures_unexpected _

theorem ensures_arm (hexpr : Ensures expr Expr.WellFormed)
    (hblock : Ensures block Block.WellFormed) :
    Ensures (arm expr block) fun a => a.condition.WellFormed ∧ a.body.WellFormed :=
  ensures_here.bind fun _ _ => ensures_advance.bind fun _ _ => hexpr.bind fun _ hcondition =>
    hblock.bind fun _ hbody => .pure ⟨hcondition, hbody⟩

theorem ensures_nestArms {no : Option Block} (hno : ∀ b ∈ no, b.WellFormed) {arms : List Arm}
    (harms : ∀ a ∈ arms, a.condition.WellFormed ∧ a.body.WellFormed) :
    Ensures (nestArms no arms) fun o => ∀ b ∈ o, b.WellFormed := by
  induction arms with
  | nil => exact .pure hno
  | cons a arms ih =>
    obtain ⟨⟨hcondition, hbody⟩, hrest⟩ := List.forall_mem_cons.1 harms
    refine (ih hrest).bind fun no hno => (ensures_accept _).bind fun _ _ =>
      (ensures_spanFrom _).bind fun _ _ => .pure fun b hb => ?_
    cases hb
    exact .mk (List.forall_mem_singleton.2 (.branch hcondition hbody hno)) nofun

theorem ensures_branch (hexpr : Ensures expr Expr.WellFormed)
    (hblock : Ensures block Block.WellFormed) : Ensures (branch expr block) Stmt.WellFormed := by
  have hstep : Ensures (do
      if (← at? (.keyword .otherwise)) && (← peekAt 1) == some (.keyword .ifThen) then
        advance
        return some (← arm expr block)
      else return none) fun o => ∀ a ∈ o, a.condition.WellFormed ∧ a.body.WellFormed := by
    refine (ensures_at _).bind fun _ _ => (ensures_peekAt 1).bind fun _ _ => .ite (fun _ => ?_)
      fun _ => ensures_none
    exact ensures_advance.bind fun _ _ => (ensures_arm hexpr hblock).bind fun a ha =>
      .pure fun x hx => by cases hx; exact ha
  refine (ensures_arm hexpr hblock).bind fun first hfirst => (ensures_many hstep).bind
    fun arms harms => (ensures_accept _).bind fun _ _ => ?_
  have hend : ∀ no : Option Block, (∀ b ∈ no, b.WellFormed) → Ensures (do
      let no ← nestArms no arms
      let _ ← accept (.symbol .semicolon)
      return Stmt.branch (← spanFrom first.start) first.condition first.body no) Stmt.WellFormed :=
    fun no hno => (ensures_nestArms hno harms).bind fun _ hno => (ensures_accept _).bind fun _ _ =>
      (ensures_spanFrom _).bind fun _ _ => .pure (.branch hfirst.1 hfirst.2 hno)
  refine .ite (fun _ => (ensures_some hblock).bind hend) fun _ => ?_
  exact ensures_none.bind hend

theorem ensures_loop (hexpr : Ensures expr Expr.WellFormed)
    (hblock : Ensures block Block.WellFormed) : Ensures (loop expr block) Stmt.WellFormed :=
  ensures_here.bind fun _ _ => ensures_advance.bind fun _ _ => ensures_identifier.bind
    fun _ hname => (ensures_expect _).bind fun _ _ => hexpr.bind fun _ hstart =>
      (ensures_expect _).bind fun _ _ => hexpr.bind fun _ hstop => hblock.bind fun _ hbody =>
        (ensures_accept _).bind fun _ _ => (ensures_spanFrom _).bind fun _ _ =>
          .pure (.loop hname hstart hstop hbody)

theorem ensures_declaration (hexpr : Ensures expr Expr.WellFormed) :
    Ensures (declaration expr) Stmt.WellFormed :=
  ensures_here.bind fun _ _ => ensures_advance.bind fun _ _ => (ensures_accept _).bind fun _ _ =>
    ensures_identifier.bind fun _ hname => (ensures_expect _).bind fun _ _ => hexpr.bind
      fun _ hvalue => ensures_semicolon.bind fun _ _ => (ensures_spanFrom _).bind fun _ _ =>
        .pure (.bind hname hvalue)

theorem ensures_assignment (hexpr : Ensures expr Expr.WellFormed) :
    Ensures (assignment expr) Stmt.WellFormed := by
  refine ensures_here.bind fun start _ => ensures_identifier.bind fun name hname =>
    (ensures_accept _).bind fun _ _ => ?_
  have hend : ∀ mode : AssignMode, Ensures (do
      let value ← expr
      semicolon
      return Stmt.assign (← spanFrom start) name mode value) Stmt.WellFormed :=
    fun mode => hexpr.bind fun _ hvalue => ensures_semicolon.bind fun _ _ =>
      (ensures_spanFrom _).bind fun _ _ => .pure (.assign hname hvalue)
  have hpure : ∀ mode, Ensures (pure mode : Parser AssignMode) fun _ => True :=
    fun mode => .pure trivial
  refine .ite (fun _ => (hpure _).bind fun mode _ => hend mode) fun _ => ?_
  exact (ensures_expect _).bind fun _ _ => (hpure _).bind fun mode _ => hend mode

theorem ensures_stmt (hexpr : Ensures expr Expr.WellFormed)
    (hblock : Ensures block Block.WellFormed) :
    Ensures (stmt? expr block) fun o => ∀ s ∈ o, s.WellFormed := by
  refine ensures_peek.bind fun k _ => ?_
  split
  · exact ensures_some (ensures_declaration hexpr)
  · exact ensures_some (ensures_loop hexpr hblock)
  · exact ensures_some (ensures_branch hexpr hblock)
  · exact ensures_here.bind fun _ _ => ensures_advance.bind fun _ _ => ensures_semicolon.bind
      fun _ _ => (ensures_spanFrom _).bind fun _ _ => .pure fun s hs => by cases hs; exact .leave
  · refine (ensures_peekAt 1).bind fun _ _ => ?_
    split
    · exact ensures_some (ensures_assignment hexpr)
    · exact ensures_some (ensures_assignment hexpr)
    · exact ensures_none
  · exact ensures_none

theorem ensures_blockBody (hexpr : Ensures expr Expr.WellFormed)
    (hblock : Ensures block Block.WellFormed) :
    Ensures (blockBody expr block) Block.WellFormed := by
  refine (ensures_expect _).bind fun _ _ => (ensures_many (ensures_stmt hexpr hblock)).bind
    fun stmts hstmts => (ensures_at _).bind fun _ _ => ?_
  have hend : ∀ result : Option Expr, (∀ e ∈ result, e.WellFormed) → Ensures (do
      let _ ← expect (.symbol .rightBrace)
      return Block.mk stmts result) Block.WellFormed :=
    fun result hresult => (ensures_expect _).bind fun _ _ => .pure (.mk hstmts hresult)
  refine .ite (fun _ => ensures_none.bind hend) fun _ => ?_
  exact (ensures_some hexpr).bind hend

theorem not_yields_none {α : Type} {p : Parser α} {c d : Cursor} :
    ¬Yields (some <$> p) c none d := by
  intro h
  obtain ⟨x, -, hx⟩ := yields_map.1 h
  cases hx

/-- Where no statement stands nothing is read. -/
theorem stmt_none {c d : Cursor} (h : Yields (stmt? expr block) c none d) : d = c := by
  unfold stmt? at h
  obtain ⟨k, c, hpeek, h⟩ := yields_bind.1 h
  cases hpeek
  split at h
  · exact absurd h not_yields_none
  · exact absurd h not_yields_none
  · exact absurd h not_yields_none
  · simp only [yields_bind] at h
    obtain ⟨_, _, _, _, _, _, _, _, _, _, _, _, hsome⟩ := h
    cases (yields_pure.1 hsome).1
  · obtain ⟨k, c', hpeek, h⟩ := yields_bind.1 h
    cases hpeek
    split at h
    · exact absurd h not_yields_none
    · exact absurd h not_yields_none
    · exact (yields_pure.1 h).2.symm
  · exact (yields_pure.1 h).2.symm

theorem many_nil {α : Type} {step : Parser (Option α)} {c d : Cursor}
    (h : Yields (many step) c [] d) : Yields step c none d := by
  obtain ⟨_, _, hget, hrounds⟩ := yields_bind.1 h
  obtain ⟨rfl, rfl⟩ := yields_get.1 hget
  obtain ⟨o, e, hstep, hrest⟩ := yields_bind.1 hrounds
  cases o with
  | none =>
    obtain ⟨-, rfl⟩ := yields_pure.1 hrest
    exact hstep
  | some x =>
    obtain ⟨xs, _, -, hcons⟩ := yields_bind.1 hrest
    cases (yields_pure.1 hcons).1

theorem rest_of_expect {kind : Token.Kind} {c d : Cursor} {t : Token}
    (h : Yields (expect kind) c t d) : c.rest = t :: d.rest := by
  obtain ⟨-, ts, hrest, rfl⟩ := yields_expect.1 h
  exact hrest

theorem blockBody_endsAtBrace : EndsAtBrace (blockBody expr block) := by
  intro c d h
  obtain ⟨t, c₁, hopen, h⟩ := yields_bind.1 h
  obtain ⟨stmts, c₂, hstmts, h⟩ := yields_bind.1 h
  obtain ⟨closes, c₃, hcloses, h⟩ := yields_bind.1 h
  obtain ⟨k, _, hpeek, hat⟩ := yields_bind.1 hcloses
  cases hpeek
  obtain ⟨hclose, rfl⟩ := yields_pure.1 hat
  have hempty : stmts = [] ∧ closes = true := by
    cases closes with
    | true =>
      obtain ⟨_, _, _, h⟩ := yields_bind.1 h
      obtain ⟨_, _, _, h⟩ := yields_bind.1 h
      cases (yields_pure.1 h).1
      exact ⟨rfl, rfl⟩
    | false =>
      obtain ⟨result, _, hresult, h⟩ := yields_bind.1 h
      obtain ⟨e, -, rfl⟩ := yields_map.1 hresult
      obtain ⟨_, _, _, h⟩ := yields_bind.1 h
      cases (yields_pure.1 h).1
  obtain ⟨rfl, rfl⟩ := hempty
  obtain rfl := stmt_none (many_nil hstmts)
  rw [rest_of_expect hopen, List.getElem?_cons_succ]
  exact beq_iff_eq.1 hclose

theorem nested_endsAtBrace (h : EndsAtBrace block) : EndsAtBrace (nested block) := by
  intro c d hnested
  obtain ⟨e, hdeeper, rfl⟩ := yields_keepDepth.1 hnested
  obtain ⟨u, c', hdescend, hblock⟩ := yields_bind.1 hdeeper
  obtain ⟨-, rfl⟩ := yields_descend.1 hdescend
  have hbrace := h hblock
  exact hbrace

end

mutual

theorem ensures_expr : ∀ n, Ensures (expr n) Expr.WellFormed
  | 0 => ensures_fail _
  | n + 1 => ensures_comparison
    (ensures_nested (ensures_atom (ensures_expr n) (ensures_block n) (block_endsAtBrace n)))
    (ensures_expr n)

theorem ensures_block : ∀ n, Ensures (block n) Block.WellFormed
  | 0 => ensures_fail _
  | n + 1 => ensures_nested (ensures_blockBody (ensures_expr n) (ensures_block n))

theorem block_endsAtBrace : ∀ n, EndsAtBrace (block n)
  | 0 => by
    intro c d h
    cases h
  | n + 1 => nested_endsAtBrace blockBody_endsAtBrace

end

section
variable {unary : Parser Pattern}

theorem ensures_choice (h : Ensures unary Pattern.WellFormed) :
    Ensures (choice unary) Pattern.WellFormed := by
  have hstep : Ensures (alternative? unary) fun o => ∀ p ∈ o, p.WellFormed :=
    (ensures_accept _).bind fun _ _ => .ite (fun _ => ensures_some h) fun _ => ensures_none
  refine h.bind fun first hfirst => (ensures_many hstep).bind fun rest hrest => ?_
  cases rest with
  | nil => exact .pure hfirst
  | cons p rest =>
    refine (ensures_spanFrom _).bind fun _ _ => .pure (.choice ?_ ?_)
    · simp
    · exact List.forall_mem_cons.2 ⟨hfirst, hrest⟩

theorem ensures_startsLabel : Ensures startsLabel fun _ => True := by
  refine (ensures_at _).bind fun _ _ => .ite (fun _ => ?_) fun _ => .pure trivial
  refine (ensures_peekAt 1).bind fun k _ => ?_
  split
  · exact (ensures_peekAt 2).bind fun _ _ => .pure trivial
  · exact .pure trivial
  · exact .pure trivial

theorem ensures_field (h : Ensures unary Pattern.WellFormed) :
    Ensures (field unary) fun f => f.2.WellFormed := by
  refine ensures_startsLabel.bind fun _ _ => .ite (fun _ => ?_) fun _ => ?_
  · exact ensures_identifier.bind fun _ _ => ensures_advance.bind fun _ _ =>
      (ensures_choice h).bind fun _ hp => .pure hp
  · exact (ensures_choice h).bind fun _ hp => .pure hp

theorem ensures_primary {expr : Parser Expr} (h : Ensures unary Pattern.WellFormed)
    (hexpr : Ensures expr Expr.WellFormed) : Ensures (primary unary expr) Pattern.WellFormed := by
  refine ensures_here.bind fun start _ => ensures_peek.bind fun k _ => ?_
  split
  · exact ensures_identifier.bind fun _ _ => (ensures_spanFrom start).bind fun _ _ => .pure .name
  · exact ensures_string.bind fun _ _ => (ensures_spanFrom start).bind fun _ _ => .pure .literal
  · exact ensures_advance.bind fun _ _ => (ensures_choice h).bind fun _ hp =>
      (ensures_expect _).bind fun _ _ => (ensures_spanFrom start).bind fun span _ =>
        .pure (hp.withSpan span)
  · refine ensures_advance.bind fun _ _ => (ensures_listUntil (ensures_field h)).bind
      fun fields hfields => (ensures_accept _).bind fun _ _ => ?_
    have hend : ∀ action : Option Expr, (∀ e ∈ action, e.WellFormed) → Ensures (do
        return Pattern.sequence (← spanFrom start) fields action) Pattern.WellFormed :=
      fun action haction => (ensures_spanFrom start).bind fun _ _ =>
        .pure (.sequence hfields haction)
    refine .ite (fun _ => (ensures_some hexpr).bind hend) fun _ => ?_
    exact ensures_none.bind hend
  · exact ensures_unexpected _

theorem ensures_unaryBody {expr : Parser Expr} (h : Ensures unary Pattern.WellFormed)
    (hexpr : Ensures expr Expr.WellFormed) :
    Ensures (unaryBody unary expr) Pattern.WellFormed := by
  refine ensures_here.bind fun start _ => (ensures_accept _).bind fun _ _ => .ite (fun _ => ?_)
    fun _ => (ensures_accept _).bind fun _ _ => .ite (fun _ => ?_) fun _ => ?_
  · exact h.bind fun _ hp => (ensures_spanFrom start).bind fun _ _ => .pure (.repetition hp)
  · exact h.bind fun _ hp => (ensures_spanFrom start).bind fun _ _ => .pure (.negation hp)
  · refine (ensures_primary h hexpr).bind fun p hp => (ensures_at _).bind fun _ _ =>
      (ensures_peekAt 1).bind fun _ _ => .ite (fun _ => ?_) fun _ => .pure hp
    exact ensures_advance.bind fun _ _ => ensures_string.bind fun _ _ =>
      (ensures_spanFrom start).bind fun _ _ => .pure (.rename hp)

end

theorem ensures_unary (n : Nat) : Ensures (unary n) Pattern.WellFormed := by
  induction n with
  | zero => exact ensures_fail _
  | succ n ih => exact ensures_nested (ensures_unaryBody ih (ensures_expr n))

theorem ensures_rule : Ensures rule Rule.WellFormed :=
  ensures_identifier.bind fun _ hname => (ensures_expect _).bind fun _ _ =>
    (ensures_choice (ensures_unary _)).bind fun _ hbody => (ensures_expect _).bind fun _ _ =>
      .pure ⟨hname, hbody⟩

theorem ensures_startsRule : Ensures startsRule fun _ => True :=
  (ensures_at _).bind fun _ _ => (ensures_peekAt 1).bind fun _ _ => .pure trivial

def Item.WellFormed (item : Item) : Prop := ∀ r, item = .rule r → r.WellFormed

theorem ensures_startPattern : Ensures startPattern fun _ => True := by
  refine (ensures_choice (ensures_unary _)).bind fun _ _ => (ensures_accept _).bind fun _ _ =>
    .ite (fun _ => .pure trivial) fun _ => ?_
  exact (ensures_accept _).bind fun _ _ => .pure trivial

theorem ensures_item : Ensures item? fun o => ∀ item ∈ o, item.WellFormed := by
  refine (ensures_at _).bind fun _ _ => .ite (fun _ => ensures_none) fun _ =>
    (ensures_at _).bind fun _ _ => .ite (fun _ => ?_) fun _ => ensures_startsRule.bind fun _ _ =>
      .ite (fun _ => ?_) fun _ => ?_
  · refine ensures_here.bind fun _ _ => ensures_advance.bind fun _ _ => .pure fun item hitem => ?_
    cases hitem
    nofun
  · refine ensures_rule.bind fun r hr => .pure fun item hitem => ?_
    cases hitem
    rintro _ ⟨⟩
    exact hr
  · refine ensures_startPattern.bind fun _ _ => .pure fun item hitem => ?_
    cases hitem
    nofun

theorem ensures_file : Ensures file fun f => ∀ r ∈ f.rules, r.WellFormed := by
  have hnext : Ensures nextRule fun o => ∀ r ∈ o, r.WellFormed :=
    ensures_startsRule.bind fun _ _ =>
      .ite (fun _ => ensures_some ensures_rule) fun _ => ensures_none
  refine (ensures_expect _).bind fun _ _ => (ensures_expect _).bind fun _ _ =>
    (ensures_many hnext).bind fun rules hrules => (ensures_at _).bind fun _ _ =>
      (ensures_at _).bind fun _ _ => .branches (ensures_many ensures_item)
        (.pure (List.forall_mem_nil _)) (ensures_unexpected _) fun items hitems => ?_
  refine (ensures_expect _).bind fun _ _ => ensures_peek.bind fun _ _ =>
    .ite (fun _ => ensures_unexpected _) fun _ => .pure ?_
  refine List.forall_mem_append.2 ⟨hrules, fun r hr => ?_⟩
  obtain ⟨item, hitem, heq⟩ := List.mem_filterMap.1 hr
  cases item with
  | rule =>
    cases heq
    exact hitems _ hitem r rfl
  | separator | start => cases heq

end Parser

/-- The rules of a parsed source are well-formed. -/
theorem parseFile_wellFormed {source : List Char} {file : File} (h : parseFile source = .ok file) :
    ∀ r ∈ file.rules, r.WellFormed := by
  obtain ⟨d, hfile⟩ := parseWith_eq_ok.1 h
  exact (Parser.ensures_file (Cursor.isNamed_start source _) hfile).2

end TextGrammar.Source
