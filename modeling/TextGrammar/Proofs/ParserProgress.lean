import TextGrammar.Proofs.Source.Recursion
import TextGrammar.Proofs.Source.Rounds

/-! # The parser makes progress

Whatever tokens a parser is given, it reads one at least for everything that it yields. So its loops
and its recursion end, although nothing in them looks for the end of the tokens. The tokens need not
be those of a source: they may stop anywhere and be of any kinds, and each one has the text that its
span covers. -/

namespace TextGrammar.Source

/-- From one cursor to another some tokens are read, and the depth is the same. -/
structure Forward (c d : Cursor) : Prop where
  consumes : Consumes c d
  depth : d.depth = c.depth

namespace Parser
variable {α : Type}

/-- A parser gets forward whenever it yields something. -/
def Progresses (p : Parser α) : Prop := ∀ ⦃c x d⦄, Yields p c x d → Forward c d

/-- The parsers with some levels of nesting left get forward. -/
structure Progress (n : Nat) : Prop where
  expr : Progresses (expr n)
  sum : Progresses (sum n)
  product : Progresses (product n)
  factor : Progresses (factor n)
  atom : Progresses (atom (Parser.expr n) (Parser.block n))
  block : Progresses (block n)
  stmt : ∀ ⦃c s d⦄, Yields (stmt? (Parser.expr n) (Parser.block n)) c (some s) d → Forward c d
  unary : Progresses (unary n)
  primary : Progresses (primary (Parser.unary n) (Parser.expr n))
  choice : Progresses (choice (Parser.unary n))
  field : Progresses (field (Parser.unary n))

/-- Each loop of the parsers with some levels of nesting left reads tokens in every round: the
loops over alternatives, fields of sequences, arguments and items, fields of records, statements,
branches, operators and suffixes. -/
structure Loops (n : Nat) : Prop where
  alternatives : Rounds (alternative? (unary n))
  fields : Rounds (nextItem (.symbol .rightBracket) (field (unary n)))
  arguments : ∀ close, Rounds (nextItem (.symbol close) (expr n))
  members : Rounds (nextItem (.symbol .rightBrace) (recordField (expr n)))
  stmts : Rounds (stmt? (expr n) (block n))
  arms : Rounds (nextArm (expr n) (block n))
  suffixes : Rounds (suffix? (expr n))
  products : Rounds (link? product? (factor n))
  sums : Rounds (link? sum? (product n))

theorem Progresses.of_passes {p : Parser α} {R : α → List Piece → Prop} (h : Passes p R)
    (hne : ∀ x ps, R x ps → ps ≠ [])
    (hdepth : ∀ ⦃c x d⦄, Yields p c x d → d.depth = c.depth) : Progresses p := by
  intro c x d hx
  obtain ⟨ps, hR, hpassed⟩ := h hx
  exact ⟨hpassed.consumes (hne x ps hR), hdepth hx⟩

theorem Takes.depth_eq {p : Parser α} {R : Nat → α → List Mark → Prop} (h : Takes p R)
    ⦃c : Cursor⦄ ⦃x : α⦄ ⦃d : Cursor⦄ (hx : Yields p c x d) : d.depth = c.depth := by
  obtain ⟨ws, htook, -⟩ := h hx
  exact htook.depth

theorem Progresses.of_passesExpr {p : Parser Expr} (h : PassesExpr p)
    (hdepth : ∀ ⦃c e d⦄, Yields p c e d → d.depth = c.depth) : Progresses p :=
  .of_passes h (by rintro e _ rfl; nofun) hdepth

theorem keepDepth_depth {p : Parser α} ⦃c : Cursor⦄ ⦃x : α⦄ ⦃d : Cursor⦄
    (h : Yields (keepDepth p) c x d) : d.depth = c.depth := by
  obtain ⟨e, -, rfl⟩ := yields_keepDepth.1 h
  rfl

theorem factor_passed (n : Nat) : PassesExpr (factor n) := by
  obtain ⟨hexpr, hblock⟩ := expr_block_passed n
  refine postfixed_passed (fun c e d h => ?_) hexpr
  obtain ⟨c', d', hatom, hpassed⟩ := nested_passed h
  exact ⟨_, rfl, hpassed (atom_passed hexpr hblock hatom)⟩

theorem product_passed (n : Nat) : PassesExpr (product n) :=
  chain_passed (fun _ _ h => (product?_eq_some.1 h).1) (factor_passed n)

theorem sum_passed (n : Nat) : PassesExpr (sum n) :=
  chain_passed (fun _ _ h => (sum?_eq_some.1 h).1) (product_passed n)

theorem progress (n : Nat) : Progress n := by
  obtain ⟨hexpr, hblock⟩ := expr_block_passed n
  obtain ⟨hexpr', hblock'⟩ := expr_block_take n
  have hunary := unary_passed n
  have hunary' := unary_takes n
  constructor
  · exact .of_passesExpr hexpr hexpr'.depth_eq
  · exact .of_passesExpr (sum_passed n) keepDepth_depth
  · exact .of_passesExpr (product_passed n) keepDepth_depth
  · exact .of_passesExpr (factor_passed n) keepDepth_depth
  · refine .of_passesExpr (fun c e d h => ⟨_, rfl, atom_passed hexpr hblock h⟩) fun c e d h => ?_
    obtain ⟨ws, htook, -⟩ := atom_yields hexpr' hblock' h
    exact htook.depth
  · exact .of_passes hblock (by rintro b _ rfl; nofun) hblock'.depth_eq
  · intro c s d hs
    obtain ⟨⟨⟩, -⟩ | ⟨_, _, _, -, htook, -⟩ := stmt?_yields hexpr' hblock' hs
    exact ⟨(stmt?_passed hexpr hblock).rounds.consumes hs, htook.depth⟩
  · exact .of_passes hunary (by rintro p _ rfl; nofun) hunary'.depth_eq
  · exact .of_passes (primary_passed hunary hexpr) (by rintro p _ rfl; nofun)
      (primary_takes hunary' hexpr').depth_eq
  · exact .of_passes (choice_passed hunary) (by rintro p _ rfl; nofun)
      (choice_takes hunary').depth_eq
  · exact .of_passes (field_passed hunary) (fun f ps hlaid => by cases hlaid <;> nofun)
      (field_takes hunary').depth_eq

theorem loops (n : Nat) : Loops n := by
  obtain ⟨hexpr, hblock⟩ := expr_block_passed n
  have hunary := unary_passed n
  exact {
    alternatives := (alternative_passed hunary).rounds
    fields := rounds_nextItem (field_passed hunary)
    arguments := fun _ => rounds_nextItem hexpr
    members := rounds_nextItem (recordField_passed hexpr)
    stmts := (stmt?_passed hexpr hblock).rounds
    arms := rounds_nextArm hexpr hblock
    suffixes := (suffix_passed hexpr).rounds
    products := (link_passed (fun _ _ h => (product?_eq_some.1 h).1) (factor_passed n)).rounds
    sums := (link_passed (fun _ _ h => (sum?_eq_some.1 h).1) (product_passed n)).rounds }

theorem progresses_rule : Progresses rule := by
  refine .of_passes rule_passed (fun _ _ => LaidEntry.ne_nil) fun c r d h => ?_
  obtain ⟨x, -, htook, -⟩ := rule_yields h
  exact htook.depth

theorem progresses_startPattern : Progresses startPattern := by
  refine .of_passes startPattern_passed (fun _ _ => LaidEntry.ne_nil) fun c p d h => ?_
  obtain ⟨x, -, htook, -⟩ := startPattern_yields h
  exact htook.depth

/-- Whatever the tokens are, parsers read one at least for all that they yield, and are as deep
then as before; so does each round of a loop, and a loop is the only one that goes on with itself
behind a round. The parsers of the nesting limit are the only ones that call themselves, and
between a call and the next but one a token is read. So they are called to a depth of two calls
for each token, and no deeper than the nesting limit leaves levels, however the recursion ends. -/
theorem parser_progress :
    (∀ n, Progress n ∧ Loops n) ∧
    (Progresses rule ∧ Progresses startPattern ∧ Rounds nextRule ∧ Rounds item?) ∧
    (∀ p : Parsers, p.callers = p ↔ p = .atLevel nestingLimit) ∧
    (∀ (p q : Parsers) (c : Cursor), q.Advance → (∀ d, Reached c 1 1 d → p.SameAt q d) →
      p.callers.callers.SameAt q.callers.callers c) ∧
    ∀ (p : Parsers) (c : Cursor) (n : Nat), c.levels < n ∨ 2 * c.rest.length + 2 ≤ n →
      (Parsers.callers^[n] p).SameAt (.atLevel nestingLimit) c :=
  ⟨fun n => ⟨progress n, loops n⟩,
    ⟨progresses_rule, progresses_startPattern, nextRule_passed.rounds, item_passed.rounds⟩,
    fun _ => Parsers.callers_eq_self_iff,
    fun _ _ _ hq h => Parsers.callers_callers_sameAt hq h,
    fun p _ n h => (Parsers.iterate_callers p n).2 h⟩

def brokenTokens : List Token :=
  [⟨.identifier, ⟨0, 1⟩, ['x']⟩, ⟨.symbol .dot, ⟨1, 2⟩, ['.']⟩, ⟨.identifier, ⟨2, 3⟩, ['y']⟩,
    ⟨.invalid, ⟨3, 4⟩, ['?']⟩]

theorem parser_progress_invalid :
    (∃ e d, Yields (expr 3) (.start brokenTokens 4) e d ∧ d.rest.map Token.kind = [.invalid] ∧
      Forward (.start brokenTokens 4) d) ∧
    (Parsers.callers^[10] (.atLevel 0)).SameAt (.atLevel nestingLimit) (.start brokenTokens 4) := by
  obtain ⟨hlevels, -, -, -, hdepth⟩ := parser_progress
  refine ⟨?_, hdepth _ _ _ (.inr (by decide))⟩
  have hyields : Yields (expr 3) (.start brokenTokens 4)
      (.field ⟨0, 3⟩ (.name ⟨0, 1⟩ "x") ⟨"y", ⟨2, 3⟩⟩)
      ⟨[⟨.invalid, ⟨3, 4⟩, ['?']⟩], ⟨2, 3⟩, 4, 0⟩ := rfl
  exact ⟨_, _, hyields, rfl, (hlevels 3).1.expr hyields⟩

end Parser

end TextGrammar.Source
