import TextGrammar.Proofs.Matching.Bound

/-! # Where a matcher stands in the source

Each pattern that a run comes to stands somewhere in a rule of the source, inside some sequences,
and the frames that it sees hold what those sequences have bound. So every action is evaluated
with the captures of the fields in front of it. -/

namespace TextGrammar.Matching
open Compile (Lists Scope Resolves ResolvesFields ResolvesRule Pairs Within lowerPattern
  lowerAction lowerPattern_clean Clean slotBehind bound isBound getElem?_of_resolvesRule
  resolvesRule_of_getElem?)

section
variable (sources : List Source.Rule) (rules : List Rule)

/-- A part of a source rule and the part of the compiled rule at the same place, with the fields
before it in the sequences around it. -/
def Placed (index : Nat) (fronts : List (List Source.Field)) (p : Source.Pattern) (q : Pattern) :
    Prop :=
  ∃ source r, sources[index]? = some source ∧ rules[index]? = some r ∧
    Within source.body r.body fronts p q

/-- A matcher stands at a place of its rule, inside sequences that have passed some fields. -/
structure Stands (s : State) (passed : List Passed) (p : Source.Pattern) (q : Pattern) : Prop where
  placed : Placed sources rules s.rule (passed.map passedFields) p q
  holds : List.Forall₂ Holds passed s.visible
  base : s.base ≤ s.frames.length

/-- A matcher has passed the front of a sequence, and has some fields to go. -/
structure Amid (s : State) (outer : List Passed) (front : Passed) (todo : List Source.Field)
    (rest : List Field) (action : Option (Source.Expr × Nat × Expr)) : Prop where
  placed : ∃ p q before frame frames,
    Placed sources rules s.rule (outer.map passedFields) p q ∧
      Pairs p q (passedFields front ++ todo) (before ++ rest) frame.length action ∧
      front.length = before.length ∧ s.visible = frame :: frames ∧ Holds front frame ∧
      List.Forall₂ Holds outer frames
  base : s.base ≤ s.frames.length

/-- A matcher has passed all fields of a sequence with an action. -/
def Acts (s : State) (passed : List Passed) (e : Source.Expr) (locals : Nat) (body : Expr) : Prop :=
  ∃ span front outer slots lowered, passed = front :: outer ∧
    Placed sources rules s.rule (outer.map passedFields)
      (.sequence span (passedFields front) (some e)) (.action slots lowered locals body) ∧
    List.Forall₂ Holds passed s.visible

/-- What a matcher is busy with stands at a place of the source. -/
def Located : Stage → Prop
  | (.call _ index, _) => index < rules.length
  | (.pattern _ q, s) => ∃ passed p, Stands sources rules s passed p q
  | (.fields _ rest action, s) =>
    ∃ outer front todo a, Amid sources rules s outer front todo rest a ∧ action = a.map Prod.snd
  | (.first _ alternatives, s) =>
    ∃ passed span front ps before, front.length = before.length ∧
      Stands sources rules s passed (.choice span (front ++ ps)) (.choice (before ++ alternatives))
  | (.rounds _ body _, s) =>
    ∃ passed span p, Stands sources rules s passed (.repetition span p) (.repetition body)
  | (.evaluation locals body, s) => ∃ passed e, Acts sources rules s passed e locals body

end

section
variable {sources : List Source.Rule} {rules : List Rule} {names : List String}

theorem Placed.resolved (hrules : List.Forall₂ (ResolvesRule names) sources rules) {index : Nat}
    {fronts : List (List Source.Field)} {p : Source.Pattern} {q : Pattern}
    (h : Placed sources rules index fronts p q) :
    ∃ scopes, List.Forall₂ Lists scopes fronts ∧ Clean (lowerPattern names scopes p) q := by
  obtain ⟨source, r, hsource, hr, hwithin⟩ := h
  obtain ⟨r', hr', -, hroot⟩ := getElem?_of_resolvesRule hrules hsource
  cases hr.symm.trans hr'
  exact hwithin.resolved hroot

theorem Placed.map {index : Nat} {fronts fronts' : List (List Source.Field)}
    {p p' : Source.Pattern} {q q' : Pattern} (h : Placed sources rules index fronts p q)
    (hf : ∀ {source : Source.Pattern} {r : Pattern}, Within source r fronts p q →
      Within source r fronts' p' q') : Placed sources rules index fronts' p' q' := by
  obtain ⟨source, r, hsource, hr, hwithin⟩ := h
  exact ⟨source, r, hsource, hr, hf hwithin⟩

theorem Stands.of_resumes {s t : State} {passed : List Passed} {p : Source.Pattern} {q : Pattern}
    (h : Stands sources rules s passed p q) (hts : t.Resumes s) :
    Stands sources rules t passed p q :=
  ⟨hts.rule ▸ h.placed, hts.visible ▸ h.holds, hts.base_le h.base⟩

/-- A sequence that is opened has passed none of its fields. -/
theorem Stands.opened {s : State} {passed : List Passed} {p : Source.Pattern} {q : Pattern}
    {fields : List Source.Field} {lowered : List Field} {slots : Nat}
    {action : Option (Source.Expr × Nat × Expr)} (h : Stands sources rules s passed p q)
    (hpair : Pairs p q fields lowered slots action) :
    Amid sources rules (s.opened slots) passed [] fields lowered action := by
  refine ⟨⟨p, q, [], List.replicate slots none, s.visible, h.placed, ?_, rfl,
    visible_opened h.base slots, holds_empty slots, h.holds⟩, Nat.le_succ_of_le h.base⟩
  rw [List.length_replicate]
  exact hpair

/-- The next field of a sequence sees what was bound in front of it. -/
theorem Amid.field {s : State} {outer : List Passed} {front : Passed} {f : Source.Field}
    {todo : List Source.Field} {lowered : Field} {rest : List Field}
    {action : Option (Source.Expr × Nat × Expr)}
    (h : Amid sources rules s outer front (f :: todo) (lowered :: rest) action) :
    Stands sources rules s (front :: outer) f.2 lowered.2 := by
  obtain ⟨⟨p, q, before, frame, frames, hplaced, hpair, hlength, hvisible, hfront, houter⟩,
    hbase⟩ := h
  refine ⟨hplaced.map fun hwithin => .field hwithin hpair ?_, hvisible ▸ .cons hfront houter,
    hbase⟩
  rw [passedFields, List.length_map, hlength]

/-- Passing a field keeps its capture in its slot. -/
theorem Amid.pass (hrules : List.Forall₂ (ResolvesRule names) sources rules) {s t : State}
    {outer : List Passed} {front : Passed} {f : Source.Field} {todo : List Source.Field}
    {lowered : Field} {rest : List Field} {action : Option (Source.Expr × Nat × Expr)}
    (h : Amid sources rules s outer front (f :: todo) (lowered :: rest) action)
    (hts : t.Resumes s) (c : Capture) :
    Amid sources rules (t.keep lowered.1 c) outer (front ++ [(f, c)]) todo rest action := by
  obtain ⟨⟨p, q, before, frame, frames, hplaced, hpair, hlength, hvisible, hfront, houter⟩,
    hbase⟩ := h
  obtain ⟨scopes, -, hclean⟩ := hplaced.resolved hrules
  obtain ⟨hslots, hresolves, -⟩ := hpair.resolved hclean
  have hlength' : (passedFields front).length = before.length := by
    rw [passedFields, List.length_map, hlength]
  obtain ⟨hslot, -⟩ := (hresolves.split hlength').head
  have hkeep := t.keep_follows lowered.1 c
  have hbase' : t.base ≤ t.frames.length := by
    rw [hts.base, hts.height]
    exact hbase
  have hroom : isBound f = true → (kept front).length < frame.length := by
    intro hf
    rw [hslots, length_kept, Compile.bound_append]
    simp [bound, hf]
  rw [← hts.visible] at hvisible
  refine ⟨⟨p, q, before ++ [lowered], _, frames, ?_, ?_, ?_, visible_keep hvisible lowered.1 c,
    ?_, houter⟩, base_le_keep hbase' lowered.1 c⟩
  · rw [hkeep.rule, hts.rule]
    exact hplaced
  · rw [passedFields_append, List.append_assoc, List.append_assoc]
    rw [length_keepIn]
    exact hpair
  · simp [hlength]
  · unfold slotBehind at hslot
    split at hslot
    · rename_i hf
      obtain ⟨b, hb, hbslot⟩ := Option.map_eq_some_iff.1 hslot
      simp only [hb, hbslot, keepIn, List.nil_append, ← length_kept]
      exact hfront.fill hf (hroom hf) c
    · rename_i hf
      simp only [Option.map_eq_none_iff.1 hslot, keepIn]
      exact hfront.skip (Bool.not_eq_true _ ▸ hf) c

/-- A sequence has a source field for each compiled one to go. -/
theorem Amid.todo_cons (hrules : List.Forall₂ (ResolvesRule names) sources rules) {s : State}
    {outer : List Passed} {front : Passed} {todo : List Source.Field} {lowered : Field}
    {rest : List Field} {action : Option (Source.Expr × Nat × Expr)}
    (h : Amid sources rules s outer front todo (lowered :: rest) action) :
    ∃ f more, todo = f :: more := by
  obtain ⟨⟨p, q, before, frame, frames, hplaced, hpair, hlength, -⟩, -⟩ := h
  obtain ⟨scopes, -, hclean⟩ := hplaced.resolved hrules
  obtain ⟨-, hresolves, -⟩ := hpair.resolved hclean
  have hlength' : (passedFields front).length = before.length := by
    rw [passedFields, List.length_map, hlength]
  cases hresolves.split hlength' with
  | cons => exact ⟨_, _, rfl⟩

/-- A choice has a source alternative for each compiled one that is left. -/
theorem Stands.alternatives_cons (hrules : List.Forall₂ (ResolvesRule names) sources rules)
    {s : State} {passed : List Passed} {span : Span} {front ps : List Source.Pattern}
    {before qs : List Pattern} {q : Pattern}
    (h : Stands sources rules s passed (.choice span (front ++ ps)) (.choice (before ++ q :: qs)))
    (hlength : front.length = before.length) : ∃ p more, ps = p :: more := by
  obtain ⟨scopes, -, hclean⟩ := h.placed.resolved hrules
  cases lowerPattern_clean.1 hclean with
  | choice hps =>
    have hdrop := List.forall₂_drop front.length (Compile.lowerPatterns_clean.1 hps)
    rw [List.drop_left, hlength, List.drop_left] at hdrop
    cases hdrop with
    | cons => exact ⟨_, _, rfl⟩

/-- A sequence without fields to go has passed all of them. -/
theorem Amid.acts (hrules : List.Forall₂ (ResolvesRule names) sources rules) {s : State}
    {outer : List Passed} {front : Passed} {todo : List Source.Field} {e : Source.Expr}
    {locals : Nat} {body : Expr}
    (h : Amid sources rules s outer front todo [] (some (e, locals, body))) :
    Acts sources rules s (front :: outer) e locals body := by
  obtain ⟨⟨p, q, before, frame, frames, hplaced, hpair, hlength, hvisible, hfront, houter⟩,
    -⟩ := h
  obtain ⟨scopes, -, hclean⟩ := hplaced.resolved hrules
  obtain ⟨-, hresolves, -⟩ := hpair.resolved hclean
  have hlength' : (passedFields front).length = before.length := by
    rw [passedFields, List.length_map, hlength]
  obtain ⟨⟩ : ResolvesFields names scopes (passedFields front) todo [] :=
    hresolves.split hlength'
  rw [List.append_nil] at hpair
  cases hpair with
  | action => exact ⟨_, front, outer, _, _, rfl, hplaced, hvisible ▸ .cons hfront houter⟩

end

section
variable {g : Grammar} {limit : Nat} {sources : List Source.Rule} {names : List String}

theorem Leads.located (hrules : List.Forall₂ (ResolvesRule names) sources g.rules)
    (hnames : names.length = sources.length) {a b : Stage} (h : Leads g limit a b)
    (ha : Located sources g.rules a) : Located sources g.rules b := by
  cases h with
  | @body levels index r s hr =>
    obtain ⟨source, hsource, -⟩ := resolvesRule_of_getElem? hrules hr
    refine ⟨[], source.body, ⟨source, r, hsource, hr, .root⟩, ?_, Nat.le_refl _⟩
    rw [visible_entered]
    exact .nil
  | sequence =>
    obtain ⟨passed, p, hstands⟩ := ha
    obtain ⟨scopes, -, hclean⟩ := hstands.placed.resolved hrules
    cases lowerPattern_clean.1 hclean with
    | sequence => exact ⟨passed, [], _, none, hstands.opened .sequence, rfl⟩
  | action =>
    obtain ⟨passed, p, hstands⟩ := ha
    obtain ⟨scopes, -, hclean⟩ := hstands.placed.resolved hrules
    cases lowerPattern_clean.1 hclean with
    | action => exact ⟨passed, [], _, some _, hstands.opened .action, rfl⟩
  | repetition =>
    obtain ⟨passed, p, hstands⟩ := ha
    obtain ⟨scopes, -, hclean⟩ := hstands.placed.resolved hrules
    cases lowerPattern_clean.1 hclean with
    | repetition => exact ⟨passed, _, _, hstands⟩
  | choice =>
    obtain ⟨passed, p, hstands⟩ := ha
    obtain ⟨scopes, -, hclean⟩ := hstands.placed.resolved hrules
    cases lowerPattern_clean.1 hclean with
    | choice => exact ⟨passed, _, [], _, [], rfl, hstands⟩
  | negation =>
    obtain ⟨passed, p, hstands⟩ := ha
    obtain ⟨scopes, -, hclean⟩ := hstands.placed.resolved hrules
    cases lowerPattern_clean.1 hclean with
    | negation =>
      exact ⟨passed, _, hstands.placed.map .negation, hstands.holds, hstands.base⟩
  | rule =>
    obtain ⟨passed, p, hstands⟩ := ha
    obtain ⟨scopes, -, hclean⟩ := hstands.placed.resolved hrules
    have hlength : names.length = g.rules.length := hnames.trans hrules.length_eq
    cases lowerPattern_clean.1 hclean with
    | rule hindex => exact (Compile.ruleIndex?_lt hindex).trans_eq hlength
    | renamed hindex => exact (Compile.ruleIndex?_lt hindex).trans_eq hlength
  | field =>
    obtain ⟨outer, front, todo, a, hamid, -⟩ := ha
    obtain ⟨f, todo, rfl⟩ := hamid.todo_cons hrules
    exact ⟨front :: outer, f.2, hamid.field⟩
  | nextField hp =>
    obtain ⟨outer, front, todo, a, hamid, haction⟩ := ha
    obtain ⟨f, todo, rfl⟩ := hamid.todo_cons hrules
    have hresumes := (matchPattern_atomic (callWithin_atomic g limit _) _ hp).1
    exact ⟨outer, _, todo, a, hamid.pass hrules hresumes _, haction⟩
  | evaluation =>
    obtain ⟨outer, front, todo, a, hamid, haction⟩ := ha
    obtain ⟨⟨e, locals, body⟩, rfl, heq⟩ := Option.map_eq_some_iff.1 haction.symm
    cases heq
    exact ⟨front :: outer, e, hamid.acts hrules⟩
  | alternative =>
    obtain ⟨passed, span, front, ps, before, hlength, hstands⟩ := ha
    obtain ⟨p, ps, rfl⟩ := hstands.alternatives_cons hrules hlength
    exact ⟨passed, p, hstands.placed.map fun hwithin => .alternative hwithin hlength,
      hstands.holds, hstands.base⟩
  | @nextAlternative _ q _ _ _ hp =>
    obtain ⟨passed, span, front, ps, before, hlength, hstands⟩ := ha
    obtain ⟨p, ps, rfl⟩ := hstands.alternatives_cons hrules hlength
    have hresumes := (matchPattern_atomic (callWithin_atomic g limit _) _ hp).1
    refine ⟨passed, span, front ++ [p], ps, before ++ [q], by simp [hlength], ?_⟩
    rw [List.append_assoc, List.append_assoc]
    exact hstands.of_resumes (hresumes.rewind _)
  | round =>
    obtain ⟨passed, span, p, hstands⟩ := ha
    exact ⟨passed, p, hstands.placed.map .repetition, hstands.holds, hstands.base⟩
  | nextRound hp _ =>
    obtain ⟨passed, span, p, hstands⟩ := ha
    have hresumes := (matchPattern_atomic (callWithin_atomic g limit _) _ hp).1
    exact ⟨passed, span, p, hstands.of_resumes hresumes⟩

end

end TextGrammar.Matching
