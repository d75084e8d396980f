import TextGrammar.Proofs.Action.Visit

/-! # Breaks

A break belongs to the innermost loop around it. Code is contained if every break in it stands in a
loop, and what an expression runs of contained code is never left. A round of a loop is left if and
only if it comes to a break of that loop, and with the locals as they are there. -/

namespace TextGrammar.Action

mutual

def ContainedExpr : Expr → Prop
  | .literal _ | .captured _ _ _ | .fetch _ _ => True
  | .index base position => ContainedExpr base ∧ ContainedExpr position
  | .field base _ => ContainedExpr base
  | .call _ arguments => ContainedExprs arguments
  | .binary _ lhs rhs => ContainedExpr lhs ∧ ContainedExpr rhs
  | .list items => ContainedExprs items
  | .record fields => ContainedFields fields
  | .block body => ContainedBlock false body

def ContainedExprs : List Expr → Prop
  | [] => True
  | e :: es => ContainedExpr e ∧ ContainedExprs es

def ContainedFields : List (String × Expr) → Prop
  | [] => True
  | (_, e) :: rest => ContainedExpr e ∧ ContainedFields rest

def ContainedResult : Option Expr → Prop
  | none => True
  | some e => ContainedExpr e

def ContainedBlock (inLoop : Bool) : Block → Prop
  | .mk stmts result => ContainedStmts inLoop stmts ∧ ContainedResult result

def ContainedOtherwise (inLoop : Bool) : Option Block → Prop
  | none => True
  | some b => ContainedBlock inLoop b

def ContainedStmts (inLoop : Bool) : List Stmt → Prop
  | [] => True
  | s :: rest => ContainedStmt inLoop s ∧ ContainedStmts inLoop rest

def ContainedStmt (inLoop : Bool) : Stmt → Prop
  | .bind _ _ value => ContainedExpr value
  | .assign _ _ _ value => ContainedExpr value
  | .loop _ _ start stop body =>
    ContainedExpr start ∧ ContainedExpr stop ∧ ContainedBlock true body
  | .branch condition yes no =>
    ContainedExpr condition ∧ ContainedBlock inLoop yes ∧ ContainedOtherwise inLoop no
  | .leave => inLoop = true

end

/-- What a part of an evaluation still runs is contained, where the part itself is run by a loop or
not. -/
def ContainedPart (inLoop : Bool) : Part → Prop
  | .expr e => ContainedExpr e
  | .exprs es => ContainedExprs es
  | .fields fields => ContainedFields fields
  | .result e => ContainedResult e
  | .all stmts => ContainedStmts false stmts
  | .stmts stmts => ContainedStmts inLoop stmts
  | .block b => ContainedBlock inLoop b
  | .otherwise b => ContainedOtherwise inLoop b
  | .stmt s => ContainedStmt inLoop s
  | .rounds _ _ body _ _ => ContainedBlock true body
  | .store _ _ _ _ => True

/-- The parts of a round that its loop runs itself: none of an expression, nor the rounds of a
nested loop. -/
def Part.IsOwn : Part → Prop
  | .stmts _ | .block _ | .otherwise _ | .stmt _ => True
  | _ => False

section
variable {frames : List Frame} {v w : Visit} {inLoop : Bool}

/-- Contained code leads to contained code. Only at a statement of an expression and at the rounds
of a loop it changes which loop it belongs to. -/
theorem Leads.contained (h : Leads frames v w) (hv : ContainedPart inLoop v.1) :
    ∃ inner, ContainedPart inner w.1 ∧ (v.1.IsOwn → inner = inLoop) := by
  have keep : ContainedPart inLoop w.1 →
      ∃ inner, ContainedPart inner w.1 ∧ (v.1.IsOwn → inner = inLoop) :=
    fun hw => ⟨inLoop, hw, fun _ => rfl⟩
  cases h with
  | eachStmt => exact ⟨false, hv.1, False.elim⟩
  | round => exact ⟨true, hv, False.elim⟩
  | field | list | record | result | initial | assigned | otherwise | nextRound => exact keep hv
  | argument | lhs | all | item | member | stmt | block | start | condition => exact keep hv.1
  | position | rhs | allResult | items | members | eachRest | stmts | blockResult =>
    exact keep hv.2
  | base => exact keep hv.1
  | stop | yes => exact keep hv.2.1
  | rounds | no => exact keep hv.2.2
  | store => exact keep trivial

/-- Whatever contained code comes to is contained. -/
theorem visits_contained (h : Visits frames v w) (hv : ContainedPart inLoop v.1) :
    ∃ inner, ContainedPart inner w.1 := by
  induction h with
  | refl => exact ⟨inLoop, hv⟩
  | tail _ hlead ih =>
    obtain ⟨inner, hinner⟩ := ih
    exact (hlead.contained hinner).imp fun _ h => h.1

end

section
variable (frames : List Frame)

def Proceeds (v w : Visit) : Prop := Leads frames v w ∧ v.1.IsOwn ∧ w.1.IsOwn

def Breaks (v : Visit) (M : Locals) : Prop :=
  Relation.ReflTransGen (Proceeds frames) v (.stmt .leave, M)

def IsLeft : Visit → Locals → Prop
  | (.stmts stmts, L), M => Yields (runStmts frames stmts) L .left M
  | (.block b, L), M => Yields (runBlock frames b) L .left M
  | (.otherwise b, L), M => Yields (runOtherwise frames b) L .left M
  | (.stmt s, L), M => Yields (run frames s) L .left M
  | _, _ => False

end

section
variable {frames : List Frame} {v w : Visit} {M : Locals}

theorem Proceeds.isLeft (h : Proceeds frames v w) (hw : IsLeft frames w M) : IsLeft frames v M := by
  obtain ⟨hlead, hv, hw'⟩ := h
  cases hlead with
  | stmt => exact yields_bind.2 ⟨_, _, hw, yields_pure.2 ⟨rfl, rfl⟩⟩
  | stmts hs => exact yields_bind.2 ⟨_, _, hs, hw⟩
  | block => exact yields_bind.2 ⟨_, _, hw, yields_pure.2 ⟨rfl, rfl⟩⟩
  | otherwise => exact hw
  | yes ho hcondition =>
    refine yields_bind.2 ⟨_, _, ho, ?_⟩
    rw [hcondition]
    exact hw
  | no ho hcondition =>
    refine yields_bind.2 ⟨_, _, ho, ?_⟩
    rw [hcondition]
    exact hw
  | _ => first | exact absurd hv id | exact absurd hw' id

/-- A round that comes to a break is left there. -/
theorem Breaks.isLeft (h : Breaks frames v M) : IsLeft frames v M := by
  induction h using Relation.ReflTransGen.head_induction_on with
  | refl => exact yields_pure.2 ⟨rfl, rfl⟩
  | head hstep _ ih => exact hstep.isLeft ih

theorem Breaks.head (h : Leads frames v w) (hv : v.1.IsOwn) (hw : w.1.IsOwn)
    (hbreak : Breaks frames w M) : Breaks frames v M :=
  Relation.ReflTransGen.head ⟨h, hv, hw⟩ hbreak

mutual

theorem runStmts_breaks : ∀ {stmts : List Stmt} {L M : Locals},
    Yields (runStmts frames stmts) L .left M → Breaks frames (.stmts stmts, L) M
  | [], _, _, h => nomatch (yields_pure.1 h).1
  | s :: rest, _, _, h => by
    simp only [runStmts, yields_bind] at h
    obtain ⟨flow, K, hs, h⟩ := h
    cases flow with
    | left =>
      obtain ⟨-, rfl⟩ := yields_pure.1 h
      exact .head .stmt trivial trivial (run_breaks hs)
    | onward => exact .head (.stmts hs) trivial trivial (runStmts_breaks h)

theorem runBlock_breaks : ∀ {b : Block} {L M : Locals},
    Yields (runBlock frames b) L .left M → Breaks frames (.block b, L) M
  | .mk stmts result, _, _, h => by
    simp only [runBlock, yields_bind] at h
    obtain ⟨flow, K, hstmts, h⟩ := h
    cases flow with
    | left =>
      obtain ⟨-, rfl⟩ := yields_pure.1 h
      exact .head .block trivial trivial (runStmts_breaks hstmts)
    | onward =>
      simp only [yields_bind, yields_pure] at h
      obtain ⟨_, _, -, ⟨⟩, -⟩ := h

theorem runOtherwise_breaks : ∀ {b : Option Block} {L M : Locals},
    Yields (runOtherwise frames b) L .left M → Breaks frames (.otherwise b, L) M
  | none, _, _, h => nomatch (yields_pure.1 h).1
  | some _, _, _, h => .head .otherwise trivial trivial (runBlock_breaks h)

theorem run_breaks : ∀ {s : Stmt} {L M : Locals},
    Yields (run frames s) L .left M → Breaks frames (.stmt s, L) M
  | .bind _ _ _, _, _, h => by
    simp only [run, yields_bind, yields_pure] at h
    obtain ⟨_, _, -, _, _, -, ⟨⟩, -⟩ := h
  | .assign _ _ .set _, _, _, h => by
    simp only [run, yields_bind, yields_pure] at h
    obtain ⟨_, _, -, _, _, -, ⟨⟩, -⟩ := h
  | .assign _ _ .append _, _, _, h => by
    simp only [run, yields_bind, yields_pure] at h
    obtain ⟨_, _, -, _, _, -, _, _, -, _, _, -, ⟨⟩, -⟩ := h
  | .loop _ _ _ _ _, _, _, h => by
    simp only [run, yields_bind, yields_pure] at h
    obtain ⟨_, _, -, _, _, -, _, _, -, _, _, -, _, _, -, ⟨⟩, -⟩ := h
  | .branch _ _ _, _, _, h => by
    simp only [run, yields_bind] at h
    obtain ⟨o, K, ho, h⟩ := h
    split at h
    · rename_i hcondition
      exact .head (.yes ho hcondition) trivial trivial (runBlock_breaks h)
    · rename_i hcondition
      exact .head (.no ho hcondition) trivial trivial (runOtherwise_breaks h)
    · exact absurd h yields_throw
  | .leave, _, _, h => by
    obtain ⟨-, rfl⟩ := yields_pure.1 h
    exact .refl

end

/-- A block of a loop is left if and only if it comes to a break of that loop, and with the locals
as they are at the break. -/
theorem runBlock_left_iff {b : Block} {L : Locals} :
    Yields (runBlock frames b) L .left M ↔ Breaks frames (.block b, L) M :=
  ⟨runBlock_breaks, fun h => h.isLeft⟩

/-- After a statement that leaves its loop nothing is run. -/
theorem visits_of_left {s : Stmt} {rest : List Stmt} {L : Locals}
    (h : Yields (run frames s) L .left M) (hw : Visits frames (.stmts (s :: rest), L) w) :
    w = (.stmts (s :: rest), L) ∨ Visits frames (.stmt s, L) w := by
  obtain rfl | ⟨u, hlead, hw⟩ := Relation.ReflTransGen.cases_head hw
  · exact .inl rfl
  · cases hlead with
    | stmt => exact .inr hw
    | stmts hs => cases h.symm.trans hs

/-- Contained code that comes to a break is run by a loop. -/
theorem Breaks.inLoop {inLoop : Bool} (h : Breaks frames v M) (hv : ContainedPart inLoop v.1) :
    inLoop = true := by
  induction h using Relation.ReflTransGen.head_induction_on with
  | refl => exact hv
  | head hstep _ ih =>
    obtain ⟨inner, hinner, hsame⟩ := hstep.1.contained hv
    exact ih (hsame hstep.2.1 ▸ hinner)

/-- A contained statement that no loop runs does not leave one. -/
theorem run_onward {s : Stmt} {L : Locals} {flow : Flow} (hs : ContainedStmt false s)
    (h : Yields (run frames s) L flow M) : flow = .onward := by
  cases flow with
  | onward => rfl
  | left => exact absurd ((run_breaks h).inLoop hs) Bool.false_ne_true

end

end TextGrammar.Action
