import TextGrammar.Proofs.Spans.Sources

/-! # Rounds of a loop

A step that yields something has read tokens for it, so there are fewer rounds of a loop than
tokens. The bound on the rounds makes no difference then: it is the loop without one. -/

namespace TextGrammar.Source
variable {α : Type}

def Consumes (c d : Cursor) : Prop := ∃ ts, ts ≠ [] ∧ c.rest = ts ++ d.rest

theorem Consumes.length_lt {c d : Cursor} (h : Consumes c d) : d.rest.length < c.rest.length := by
  obtain ⟨ts, hne, hrest⟩ := h
  have hpos := List.length_pos_iff.2 hne
  rw [hrest, List.length_append]
  omega

theorem Passed.consumes {c d : Cursor} {ps : List Piece} (h : Passed c ps d) (hne : ps ≠ []) :
    Consumes c d := by
  obtain ⟨ts, hts, hlength, -⟩ := h
  have hpos := List.length_pos_iff.2 hne
  exact ⟨ts, List.length_pos_iff.1 (Nat.lt_of_lt_of_le hpos hlength), hts.rest⟩

namespace Parser
variable {step : Parser (Option α)} {p q : Parser (List α)} {c : Cursor}

/-- One round of a loop: a step, and what follows it if it yields something. -/
def round (step : Parser (Option α)) (p : Parser (List α)) : Parser (List α) := do
  match ← step with
  | none => return []
  | some x => return x :: (← p)

/-- What a round does depends on what follows behind the tokens that the step has read. -/
theorem round_same (h : ∀ x d, Yields step c (some x) d → p.run d = q.run d) :
    (round step p).run c = (round step q).run c := by
  unfold round
  rw [StateT.run_bind, StateT.run_bind]
  rcases hstep : step.run c with fault | ⟨_ | x, d⟩
  · rfl
  · rfl
  · change ((do return x :: (← p)) : Parser (List α)).run d =
      ((do return x :: (← q)) : Parser (List α)).run d
    rw [StateT.run_bind, StateT.run_bind, h x d hstep]

/-- A step reads tokens for what it yields. The loop is then the only one that goes on with itself
behind each round. -/
structure Rounds (step : Parser (Option α)) : Prop where
  consumes : ∀ ⦃c x d⦄, Yields step c (some x) d → Consumes c d
  loop : ∀ p : Parser (List α), p = round step p ↔ p = many step

section
variable (hstep : ∀ ⦃c x d⦄, Yields step c (some x) d → Consumes c d)
include hstep

/-- More rounds than tokens make no difference. -/
theorem manyUpTo_same {n m : Nat} (hn : c.rest.length < n) (hm : c.rest.length < m) :
    (manyUpTo step n).run c = (manyUpTo step m).run c := by
  induction n generalizing c m with
  | zero => cases hn
  | succ n ih =>
    obtain _ | m := m
    · cases hm
    · refine round_same fun x d hx => ih ?_ ?_
      · exact Nat.lt_of_lt_of_le (hstep hx).length_lt (Nat.le_of_lt_succ hn)
      · exact Nat.lt_of_lt_of_le (hstep hx).length_lt (Nat.le_of_lt_succ hm)

theorem round_many : many step = round step (many step) := by
  funext c
  change (manyUpTo step (c.rest.length + 1)).run c = (round step (many step)).run c
  refine round_same fun x d hx => ?_
  exact manyUpTo_same hstep (hstep hx).length_lt (Nat.lt_succ_self _)

/-- Two loops of the same step do the same, as long as tokens are left. -/
theorem eq_of_round (hp : p = round step p) (hq : q = round step q) : p = q := by
  suffices hsame : ∀ n c, c.rest.length < n → p.run c = q.run c from
    funext fun c => hsame _ c (Nat.lt_succ_self _)
  intro n
  induction n with
  | zero => exact fun c hc => absurd hc (Nat.not_lt_zero _)
  | succ n ih =>
    intro c hc
    rw [hp, hq]
    exact round_same fun x d hx =>
      ih d (Nat.lt_of_lt_of_le (hstep hx).length_lt (Nat.le_of_lt_succ hc))

theorem Rounds.of_consumes : Rounds step where
  consumes := hstep
  loop p := by
    constructor
    · exact fun hp => eq_of_round hstep hp (round_many hstep)
    · rintro rfl
      exact round_many hstep

end

theorem PassesStep.rounds {R : α → List Piece → Prop} (h : PassesStep step R) : Rounds step := by
  refine .of_consumes fun c x d hx => ?_
  obtain ⟨⟨⟩, -⟩ | ⟨_, ps, -, -, hne, hpassed⟩ := h hx
  exact hpassed.consumes hne

theorem PassesFold.rounds {f : Expr → α → Expr} (h : PassesFold step f) : Rounds step := by
  refine .of_consumes fun c x d hx => ?_
  obtain ⟨⟨⟩, -⟩ | ⟨_, ps, -, hne, hpassed, -⟩ := h hx
  exact hpassed.consumes hne

theorem rounds_nextItem {close : Symbol} {item : Parser α} {R : α → List Piece → Prop}
    (h : Passes item R) : Rounds (nextItem (.symbol close) item) := by
  refine .of_consumes fun c x d hx => ?_
  obtain ⟨⟨⟩, -⟩ | ⟨_, ps, -, -, hpassed⟩ := nextItem_passed h hx
  exact hpassed.consumes (List.cons_ne_nil _ _)

theorem rounds_nextArm {expr : Parser Expr} {block : Parser Block} (hexpr : PassesExpr expr)
    (hblock : PassesBlock block) : Rounds (nextArm expr block) := by
  refine .of_consumes fun c x d hx => ?_
  obtain ⟨⟨⟩, -⟩ | ⟨a, e, -, helse, -, harm⟩ := nextArm_passed hexpr hblock hx
  exact (helse.trans harm).consumes nofun

end Parser

end TextGrammar.Source
