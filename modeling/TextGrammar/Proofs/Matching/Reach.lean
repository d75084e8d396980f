import Mathlib.Logic.Relation
import TextGrammar.Proofs.Matching.Atomic

/-! # What a run comes to

Matching a pattern leads to matching its parts, calling a rule leads to matching its body, and
matching the fields of an action leads to its evaluation. A run that ends with an error has come
to a call or an evaluation that raises the error. So what holds at the start of a run and is kept
by each lead decides which errors a run can end with. -/

namespace TextGrammar.Matching

/-- What a matcher is busy with while `levels` more rules may be opened: a call, a pattern, the
remaining fields of a sequence with the action at its end, the remaining alternatives of a choice,
the remaining rounds of a repetition, or the evaluation of an action. -/
inductive Task where
  | call (levels index : Nat)
  | pattern (levels : Nat) (p : Pattern)
  | fields (levels : Nat) (rest : List Field) (action : Option (Nat × Expr))
  | first (levels : Nat) (alternatives : List Pattern)
  | rounds (levels : Nat) (body : Pattern) (count : Nat)
  | evaluation (locals : Nat) (body : Expr)

/-- What a matcher is busy with, and the state in which it starts on it. -/
abbrev Stage := Task × State

section
variable (g : Grammar) (limit : Nat)

abbrev matchWithin (levels : Nat) (p : Pattern) : Matcher Outcome :=
  matchPattern g (callWithin g limit levels) p

/-- One stage leads to another one directly. -/
inductive Leads : Stage → Stage → Prop
  | body {levels index : Nat} {r : Rule} {s : State} (hr : g.rule? index = some r) :
    Leads (.call (levels + 1) index, s) (.pattern levels r.body, s.entered index r.name)
  | sequence {levels slots : Nat} {fields : List Field} {s : State} :
    Leads (.pattern levels (.sequence slots fields), s) (.fields levels fields none, s.opened slots)
  | action {levels slots : Nat} {fields : List Field} {locals : Nat} {body : Expr} {s : State} :
    Leads (.pattern levels (.action slots fields locals body), s)
      (.fields levels fields (some (locals, body)), s.opened slots)
  | repetition {levels : Nat} {p : Pattern} {s : State} :
    Leads (.pattern levels (.repetition p), s) (.rounds levels p (s.place.rest.length + 1), s)
  | choice {levels : Nat} {ps : List Pattern} {s : State} :
    Leads (.pattern levels (.choice ps), s) (.first levels ps, s)
  | negation {levels : Nat} {p : Pattern} {s : State} :
    Leads (.pattern levels (.negation p), s) (.pattern levels p, s)
  | rule {levels index : Nat} {newName : Option String} {s : State} :
    Leads (.pattern levels (.rule index newName), s) (.call levels index, s)
  | field {levels : Nat} {b : Option Binding} {p : Pattern} {rest : List Field}
    {action : Option (Nat × Expr)} {s : State} :
    Leads (.fields levels ((b, p) :: rest) action, s) (.pattern levels p, s)
  | nextField {levels : Nat} {b : Option Binding} {p : Pattern} {rest : List Field}
    {action : Option (Nat × Expr)} {s t : State} {c : Capture}
    (hp : Yields (matchWithin g limit levels p) s (some c) t) :
    Leads (.fields levels ((b, p) :: rest) action, s) (.fields levels rest action, t.keep b c)
  | evaluation {levels locals : Nat} {body : Expr} {s : State} :
    Leads (.fields levels [] (some (locals, body)), s) (.evaluation locals body, s)
  | alternative {levels : Nat} {p : Pattern} {rest : List Pattern} {s : State} :
    Leads (.first levels (p :: rest), s) (.pattern levels p, s)
  | nextAlternative {levels : Nat} {p : Pattern} {rest : List Pattern} {s t : State}
    (hp : Yields (matchWithin g limit levels p) s none t) :
    Leads (.first levels (p :: rest), s) (.first levels rest, { t with place := s.place })
  | round {levels : Nat} {p : Pattern} {count : Nat} {s : State} :
    Leads (.rounds levels p (count + 1), s) (.pattern levels p, s)
  | nextRound {levels : Nat} {p : Pattern} {count : Nat} {s t : State} {c : Capture}
    (hp : Yields (matchWithin g limit levels p) s (some c) t)
    (hlt : s.place.offset < t.place.offset) :
    Leads (.rounds levels p (count + 1), s) (.rounds levels p count, t)

/-- One stage leads to another one in some steps. -/
def Reaches : Stage → Stage → Prop := Relation.ReflTransGen (Leads g limit)

/-- A stage raises an error by itself. -/
inductive Raises : Stage → RunError → Prop
  | unknownRule {levels index : Nat} {s : State} (hr : g.rule? index = none) :
    Raises (.call levels index, s) (.unknownRule index)
  | depthLimit {index : Nat} {r : Rule} {s : State} (hr : g.rule? index = some r) :
    Raises (.call 0 index, s) (.depthLimit r.name limit)
  | action {locals : Nat} {body : Expr} {fault : Action.Fault} {s : State}
    (hfault : Action.evaluate locals body s.visible = .error fault) :
    Raises (.evaluation locals body, s) (.action (g.nameOf s.rule) fault)

/-- A stage comes to one that raises an error. -/
def ComesTo (a : Stage) (e : RunError) : Prop := ∃ b, Reaches g limit a b ∧ Raises g limit b e

end

variable {g : Grammar} {limit : Nat}

/-- What each lead keeps holds at every stage that is reached. -/
theorem Reaches.keeps {I : Stage → Prop} (hstep : ∀ ⦃a b⦄, Leads g limit a b → I a → I b)
    {a b : Stage} (h : Reaches g limit a b) (ha : I a) : I b := by
  induction h with
  | refl => exact ha
  | tail _ hbc ih => exact hstep hbc ih

/-- No lead goes back in the input. -/
theorem Leads.ahead {a b : Stage} (h : Leads g limit a b) : a.2.place.Before b.2.place := by
  cases h with
  | body | sequence | action | repetition | choice | negation | rule | field | evaluation
  | alternative | nextAlternative | round => exact .refl _
  | nextField hp =>
    rw [State.keep_place]
    exact (matchPattern_atomic (callWithin_atomic g limit _) _ hp).1.ahead
  | nextRound hp _ => exact (matchPattern_atomic (callWithin_atomic g limit _) _ hp).1.ahead

theorem Reaches.ahead {a b : Stage} (h : Reaches g limit a b) :
    a.2.place.Before b.2.place :=
  h.keeps (I := fun b => a.2.place.Before b.2.place) (fun _ _ hbc hab => hab.trans hbc.ahead)
    (.refl _)

theorem ComesTo.of_leads {a b : Stage} {e : RunError} (hab : Leads g limit a b)
    (h : ComesTo g limit b e) : ComesTo g limit a e := by
  obtain ⟨c, hbc, hc⟩ := h
  exact ⟨c, .head hab hbc, hc⟩

theorem ComesTo.of_raises {a : Stage} {e : RunError} (h : Raises g limit a e) :
    ComesTo g limit a e := ⟨a, .refl, h⟩

/-- After the last field of a sequence its action is evaluated. -/
theorem matchFields_comesTo_action {levels : Nat} {fields : List Field} {locals : Nat}
    {body : Expr} {s t : State} {e : RunError}
    (h : Yields (matchFields g (callWithin g limit levels) fields) s true t)
    (he : Faults (yieldValue g locals body) t e) :
    ComesTo g limit (.fields levels fields (some (locals, body)), s) e := by
  induction fields generalizing s with
  | nil =>
    obtain ⟨-, rfl⟩ := yields_pure.1 h
    obtain ⟨fault, hfault, rfl⟩ := yieldValue_faults he
    exact .of_leads .evaluation (.of_raises (.action hfault))
  | cons field rest ih =>
    obtain ⟨b, p⟩ := field
    obtain ⟨c, u, hp, hrest⟩ | ⟨-, hall⟩ := matchFields_yields h
    · exact .of_leads (.nextField hp) (ih hrest)
    · cases hall

theorem repeatUpTo_comesTo {levels count : Nat} {p : Pattern} {s : State} {e : RunError}
    (hbody : ∀ ⦃s e⦄, Faults (matchWithin g limit levels p) s e →
      ComesTo g limit (.pattern levels p, s) e)
    (h : Faults (repeatUpTo (matchWithin g limit levels p) count) s e) :
    ComesTo g limit (.rounds levels p count, s) e := by
  induction count generalizing s with
  | zero => exact absurd h faults_pure
  | succ count ih =>
    obtain hp | ⟨c, t, hp, hlt, hrest⟩ := repeatUpTo_faults h
    · exact .of_leads .round (hbody hp)
    · exact .of_leads (.nextRound hp hlt) (ih hrest)

section
variable {levels : Nat}

mutual

theorem matchPattern_comesTo (hcall : ∀ ⦃index s e⦄, Faults (callWithin g limit levels index) s e →
    ComesTo g limit (.call levels index, s) e) :
    ∀ (p : Pattern) ⦃s e⦄, Faults (matchWithin g limit levels p) s e →
      ComesTo g limit (.pattern levels p, s) e
  | .leaf _, _, _, h => absurd h matchLeaf_faults
  | .literal _, _, _, h => absurd h matchLiteral_faults
  | .sequence _ fields, _, _, h => by
    obtain hfields | ⟨t, -, hyield⟩ := inFrame_faults h
    · exact .of_leads .sequence (matchFields_comesTo hcall fields none hfields)
    · exact absurd hyield yieldRecord_faults
  | .action _ fields locals body, _, _, h => by
    obtain hfields | ⟨t, ht, hyield⟩ := inFrame_faults h
    · exact .of_leads .action (matchFields_comesTo hcall fields _ hfields)
    · exact .of_leads .action (matchFields_comesTo_action ht hyield)
  | .repetition body, _, _, h =>
    .of_leads .repetition
      (repeatUpTo_comesTo (matchPattern_comesTo hcall body) (repeatGreedily_faults h))
  | .choice alternatives, _, _, h =>
    .of_leads .choice (matchFirst_comesTo hcall alternatives h)
  | .negation body, _, _, h =>
    .of_leads .negation (matchPattern_comesTo hcall body (lookAhead_faults h))
  | .rule _ _, _, _, h => .of_leads .rule (hcall h)

theorem matchFields_comesTo (hcall : ∀ ⦃index s e⦄, Faults (callWithin g limit levels index) s e →
    ComesTo g limit (.call levels index, s) e) :
    ∀ (fields : List (Option Binding × Pattern)) (action : Option (Nat × Expr)) ⦃s e⦄,
      Faults (matchFields g (callWithin g limit levels) fields) s e →
      ComesTo g limit (.fields levels fields action, s) e
  | [], _, _, _, h => absurd h faults_pure
  | (_, p) :: rest, action, _, _, h => by
    obtain hp | ⟨c, t, hp, hrest⟩ := matchFields_faults h
    · exact .of_leads .field (matchPattern_comesTo hcall p hp)
    · exact .of_leads (.nextField hp) (matchFields_comesTo hcall rest action hrest)

theorem matchFirst_comesTo (hcall : ∀ ⦃index s e⦄, Faults (callWithin g limit levels index) s e →
    ComesTo g limit (.call levels index, s) e) :
    ∀ (ps : List Pattern) ⦃s e⦄, Faults (matchFirst g (callWithin g limit levels) ps) s e →
      ComesTo g limit (.first levels ps, s) e
  | [], _, _, h => absurd h faults_pure
  | p :: rest, _, _, h => by
    obtain hp | ⟨t, hp, hrest⟩ := matchFirst_faults h
    · exact .of_leads .alternative (matchPattern_comesTo hcall p hp)
    · exact .of_leads (.nextAlternative hp) (matchFirst_comesTo hcall rest hrest)

end

end

/-- A call that ends with an error comes to a stage that raises it. -/
theorem callWithin_comesTo {levels index : Nat} {s : State} {e : RunError}
    (h : Faults (callWithin g limit levels index) s e) :
    ComesTo g limit (.call levels index, s) e := by
  induction levels generalizing index s e with
  | zero =>
    obtain ⟨hr, rfl⟩ | ⟨r, hr, -, rfl⟩ | ⟨_, _, -, hlevels, -⟩ := callWithin_faults h
    · exact .of_raises (.unknownRule hr)
    · exact .of_raises (.depthLimit hr)
    · cases hlevels
  | succ levels ih =>
    obtain ⟨hr, rfl⟩ | ⟨_, -, hlevels, -⟩ | ⟨r, left, hr, hlevels, hbody⟩ := callWithin_faults h
    · exact .of_raises (.unknownRule hr)
    · cases hlevels
    · cases hlevels
      exact .of_leads (.body hr) (matchPattern_comesTo (fun _ _ _ h => ih h) r.body hbody)

end TextGrammar.Matching
