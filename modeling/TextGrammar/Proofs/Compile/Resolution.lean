import Mathlib.Data.List.Forall2
import TextGrammar.Proofs.Compile.Clean

/-! # Resolved patterns

The names of a pattern are resolved part by part. The scope of a sequence lists the fields that
it has bound, and the slot of a field is the number of bound fields before it. -/

namespace TextGrammar.Compile
variable {names : List String} {outer : List Scope}

/-- A source pattern and what its names are resolved to, by the parts of both. -/
inductive Resolves (names : List String) (outer : List Scope) : Source.Pattern → Pattern → Prop
  | leaf {span : Span} {name : String} {l : Leaf} (hleaf : Leaf.ofName? name = some l) :
    Resolves names outer (.name span name) (.leaf l)
  | rule {span : Span} {name : String} {index : Nat} (hindex : ruleIndex? names name = some index) :
    Resolves names outer (.name span name) (.rule index none)
  | renamed {span inner : Span} {name : String} {newName : Source.Name} {index : Nat}
    (hindex : ruleIndex? names name = some index) :
    Resolves names outer (.rename span (.name inner name) newName)
      (.rule index (some newName.text))
  | literal {span : Span} {text : String} :
    Resolves names outer (.literal span text) (.literal text)
  | sequence {span : Span} {fields : List Source.Field} {own : Scope} {slots : Nat}
    {lowered : List Field}
    (hfields : Clean (lowerFields names outer [] 0 fields) (own, slots, lowered)) :
    Resolves names outer (.sequence span fields none) (.sequence slots lowered)
  | action {span : Span} {fields : List Source.Field} {e : Source.Expr} {own : Scope}
    {slots locals : Nat} {lowered : List Field} {body : Expr}
    (hfields : Clean (lowerFields names outer [] 0 fields) (own, slots, lowered))
    (hbody : Clean (lowerAction (own :: outer) e) (body, locals)) :
    Resolves names outer (.sequence span fields (some e)) (.action slots lowered locals body)
  | repetition {span : Span} {p : Source.Pattern} {q : Pattern}
    (hp : Clean (lowerPattern names outer p) q) :
    Resolves names outer (.repetition span p) (.repetition q)
  | choice {span : Span} {ps : List Source.Pattern} {qs : List Pattern}
    (hps : Clean (lowerPatterns names outer ps) qs) :
    Resolves names outer (.choice span ps) (.choice qs)
  | negation {span : Span} {p : Source.Pattern} {q : Pattern}
    (hp : Clean (lowerPattern names outer p) q) :
    Resolves names outer (.negation span p) (.negation q)

theorem ruleIndex?_of_isSome {name : String} (h : (Leaf.ofName? name).isSome) :
    ruleIndex? names name = none := by
  simp [ruleIndex?, h]

theorem ofName?_of_ruleIndex? {name : String} {index : Nat}
    (h : ruleIndex? names name = some index) : Leaf.ofName? name = none := by
  unfold ruleIndex? at h
  split at h
  · cases h
  · rename_i hleaf
    exact Option.not_isSome_iff_eq_none.1 hleaf

theorem ruleIndex?_lt {name : String} {index : Nat} (h : ruleIndex? names name = some index) :
    index < names.length := by
  unfold ruleIndex? at h
  split at h
  · cases h
  · exact (List.findIdx?_eq_some_iff_findIdx_eq.1 h).1

/-- A rule that a name refers to has that name. -/
theorem getElem?_of_ruleIndex? {name : String} {index : Nat}
    (h : ruleIndex? names name = some index) : names[index]? = some name := by
  unfold ruleIndex? at h
  split at h
  · cases h
  · obtain ⟨hlt, hname, -⟩ := List.findIdx?_eq_some_iff_getElem.1 h
    rw [List.getElem?_eq_getElem hlt, of_decide_eq_true hname]

/-- The names that mean rules are those of the rules, but for leaf types. -/
theorem exists_ruleIndex? {name : String} :
    (∃ index, ruleIndex? names name = some index) ↔ Leaf.ofName? name = none ∧ name ∈ names := by
  rw [← Option.isSome_iff_exists]
  unfold ruleIndex?
  cases Leaf.ofName? name with
  | some l => simp
  | none => simp [List.findIdx?_isSome]

theorem reference_clean {span : Span} {name : String} {newName : Option String} {q : Pattern} :
    Clean (reference names span name newName) q ↔
      (∃ l, Leaf.ofName? name = some l ∧ q = .leaf l) ∨
        ∃ index, ruleIndex? names name = some index ∧ q = .rule index newName := by
  unfold reference
  cases hleaf : Leaf.ofName? name with
  | some l =>
    have hnone : ruleIndex? names name = none := ruleIndex?_of_isSome (by simp [hleaf])
    simp [clean_pure, hnone, eq_comm]
  | none =>
    cases hindex : ruleIndex? names name with
    | some index => simp [clean_pure, eq_comm]
    | none => simp [clean_bind, clean_report]

/-- A pattern is resolved and nothing is found exactly if its parts are. -/
theorem lowerPattern_clean {p : Source.Pattern} {q : Pattern} :
    Clean (lowerPattern names outer p) q ↔ Resolves names outer p q := by
  constructor
  · intro h
    cases p with
    | name span name =>
      obtain ⟨l, hl, rfl⟩ | ⟨index, hindex, rfl⟩ := reference_clean.1 h
      · exact .leaf hl
      · exact .rule hindex
    | literal span text =>
      obtain rfl := clean_pure.1 h
      exact .literal
    | sequence span fields action =>
      cases action with
      | none =>
        simp only [lowerPattern, clean_bind, clean_pure] at h
        obtain ⟨⟨own, slots, lowered⟩, hfields, rfl⟩ := h
        exact .sequence hfields
      | some e =>
        simp only [lowerPattern, clean_bind, clean_pure] at h
        obtain ⟨⟨own, slots, lowered⟩, hfields, ⟨body, locals⟩, hbody, rfl⟩ := h
        exact .action hfields hbody
    | repetition span body =>
      simp only [lowerPattern, clean_bind, clean_pure] at h
      obtain ⟨q, hq, rfl⟩ := h
      exact .repetition hq
    | choice span alternatives =>
      simp only [lowerPattern, clean_bind, clean_pure] at h
      obtain ⟨qs, hqs, rfl⟩ := h
      exact .choice hqs
    | negation span body =>
      simp only [lowerPattern, clean_bind, clean_pure] at h
      obtain ⟨q, hq, rfl⟩ := h
      exact .negation hq
    | rename span body newName =>
      cases body with
      | name inner name =>
        unfold lowerPattern at h
        split at h
        · simp only [clean_bind, clean_report, false_and, exists_false] at h
        · rename_i hleaf
          obtain ⟨l, hl, -⟩ | ⟨index, hindex, rfl⟩ := reference_clean.1 h
          · exact absurd (by simp [hl]) hleaf
          · exact .renamed hindex
      | literal | sequence | repetition | choice | negation | rename =>
        simp only [lowerPattern, clean_bind, clean_report, false_and, exists_false] at h
  · intro h
    cases h with
    | leaf hleaf => exact reference_clean.2 (.inl ⟨_, hleaf, rfl⟩)
    | rule hindex => exact reference_clean.2 (.inr ⟨_, hindex, rfl⟩)
    | renamed hindex =>
      have hleaf := ofName?_of_ruleIndex? hindex
      simp only [lowerPattern, hleaf, Option.isSome_none, Bool.false_eq_true, if_false]
      exact reference_clean.2 (.inr ⟨_, hindex, rfl⟩)
    | literal => exact clean_pure.2 rfl
    | sequence hfields =>
      simp only [lowerPattern, clean_bind, clean_pure]
      exact ⟨_, hfields, rfl⟩
    | action hfields hbody =>
      simp only [lowerPattern, clean_bind, clean_pure]
      exact ⟨_, hfields, _, hbody, rfl⟩
    | repetition hp | choice hps | negation hp =>
      simp only [lowerPattern, clean_bind, clean_pure]
      exact ⟨_, ‹_›, rfl⟩

theorem lowerPatterns_clean {ps : List Source.Pattern} {qs : List Pattern} :
    Clean (lowerPatterns names outer ps) qs ↔
      List.Forall₂ (fun p q => Clean (lowerPattern names outer p) q) ps qs := by
  induction ps generalizing qs with
  | nil => simp [lowerPatterns, clean_pure, eq_comm]
  | cons p ps ih =>
    simp only [lowerPatterns, clean_bind, clean_pure, ih, List.forall₂_cons_left_iff]
    constructor
    · rintro ⟨q, hq, qs, hqs, rfl⟩
      exact ⟨q, qs, hq, hqs, rfl⟩
    · rintro ⟨q, qs, hq, hqs, rfl⟩
      exact ⟨q, hq, qs, hqs, rfl⟩

theorem exists_of_forall₂_right {α β : Type} {R : α → β → Prop} {xs : List α} {ys : List β}
    (h : List.Forall₂ R xs ys) {y : β} (hy : y ∈ ys) : ∃ x ∈ xs, R x y := by
  induction h with
  | nil => cases hy
  | @cons x _ _ _ hhead _ ih =>
    rcases List.mem_cons.1 hy with rfl | hrest
    · exact ⟨x, List.mem_cons_self, hhead⟩
    · obtain ⟨other, hother, hR⟩ := ih hrest
      exact ⟨other, List.mem_cons_of_mem _ hother, hR⟩

theorem exists_of_forall₂_left {α β : Type} {R : α → β → Prop} {xs : List α} {ys : List β}
    (h : List.Forall₂ R xs ys) {x : α} (hx : x ∈ xs) : ∃ y ∈ ys, R x y :=
  exists_of_forall₂_right (R := fun y x => R x y) h.flip hx

def ResolvesRule (names : List String) (source : Source.Rule) (r : Rule) : Prop :=
  r.name = source.name.text ∧ Clean (lowerPattern names [] source.body) r.body

section
variable {sources : List Source.Rule} {rules : List Rule}

/-- Every rule of a table has a source rule at the same place. -/
theorem resolvesRule_of_getElem? (h : List.Forall₂ (ResolvesRule names) sources rules) {i : Nat}
    {r : Rule} (hr : rules[i]? = some r) :
    ∃ source, sources[i]? = some source ∧ ResolvesRule names source r := by
  obtain ⟨hlt, rfl⟩ := List.getElem?_eq_some_iff.1 hr
  have hlt' : i < sources.length := by rwa [h.length_eq]
  exact ⟨sources[i], List.getElem?_eq_getElem hlt', h.get hlt' hlt⟩

/-- Every source rule has a rule of the table at the same place. -/
theorem getElem?_of_resolvesRule (h : List.Forall₂ (ResolvesRule names) sources rules) {i : Nat}
    {source : Source.Rule} (hsource : sources[i]? = some source) :
    ∃ r, rules[i]? = some r ∧ ResolvesRule names source r := by
  obtain ⟨hlt, rfl⟩ := List.getElem?_eq_some_iff.1 hsource
  have hlt' : i < rules.length := by rwa [← h.length_eq]
  exact ⟨rules[i], List.getElem?_eq_getElem hlt', h.get hlt hlt'⟩

end

theorem lowerRules_clean {sources : List Source.Rule} {rules : List Rule} :
    Clean (lowerRules names sources) rules ↔ List.Forall₂ (ResolvesRule names) sources rules := by
  induction sources generalizing rules with
  | nil => simp [lowerRules, clean_pure, eq_comm]
  | cons source sources ih =>
    simp only [lowerRules, clean_bind, clean_pure, ih, List.forall₂_cons_left_iff]
    constructor
    · rintro ⟨body, hbody, rest, hrest, rfl⟩
      exact ⟨_, rest, ⟨rfl, hbody⟩, hrest, rfl⟩
    · rintro ⟨⟨name, body⟩, rest, ⟨rfl, hbody⟩, hrest, rfl⟩
      exact ⟨body, hbody, rest, hrest, rfl⟩

/-- Reports on each of some parts of a source find nothing exactly if there are none. -/
theorem clean_forM_report {α : Type} {parts : List α} {place : α → Span} {problem : Problem}
    {u : Unit} : Clean (parts.forM fun part => Checked.report (place part) problem) u ↔
      parts = [] := by
  cases parts with
  | nil => exact iff_of_true (clean_pure.2 rfl) rfl
  | cons => simp [List.forM_cons, clean_bind, clean_report]

theorem lowerStart_clean {p : Source.Pattern} {start : Option Nat} :
    Clean (lowerStart names p) start ↔
      ∃ span name index, p = .name span name ∧ ruleIndex? names name = some index ∧
        start = some index := by
  cases p with
  | name span name =>
    unfold lowerStart
    dsimp only
    split
    · rename_i index hindex
      rw [clean_pure]
      constructor
      · rintro rfl
        exact ⟨span, name, index, rfl, hindex, rfl⟩
      · rintro ⟨_, _, _, ⟨⟩, hfound, rfl⟩
        exact hindex.symm.trans hfound
    · rename_i hindex
      simp only [clean_bind, clean_report, false_and, exists_false, false_iff]
      rintro ⟨_, _, _, ⟨⟩, hfound, -⟩
      cases hindex.symm.trans hfound
  | _ => simp [lowerStart, clean_bind, clean_report]

/-- A start rule is designated by its name, as the only pattern behind the only separator. -/
theorem lowerStarts_clean {file : Source.File} {start : Option Nat} :
    Clean (lowerStarts names file) start ↔
      (∃ span, file.separators = [span]) ∧ ∃ span name index, file.starts = [.name span name] ∧
        ruleIndex? names name = some index ∧ start = some index := by
  unfold lowerStarts
  cases file.separators with
  | nil => simp [clean_bind, clean_report]
  | cons separator extra =>
    cases file.starts with
    | nil => simp [clean_bind, clean_report]
    | cons first rest =>
      simp only [clean_bind, clean_forM_report, lowerStart_clean, exists_const, List.cons.injEq]
      constructor
      · rintro ⟨rfl, rfl, span, name, index, rfl, hindex, rfl⟩
        exact ⟨⟨separator, rfl, rfl⟩, span, name, index, ⟨rfl, rfl⟩, hindex, rfl⟩
      · rintro ⟨⟨_, -, rfl⟩, span, name, index, ⟨rfl, rfl⟩, hindex, rfl⟩
        exact ⟨rfl, rfl, span, name, index, rfl, hindex, rfl⟩

def ruleNames (file : Source.File) : List String := file.rules.map (·.name.text)

theorem lower_clean {file : Source.File} {l : Lowered} :
    Clean (lower file) l ↔
      ruleNameFindings [] file.rules = [] ∧
        List.Forall₂ (ResolvesRule (ruleNames file)) file.rules l.rules ∧
        l.spans = file.rules.map (·.name.span) ∧
        Clean (lowerStarts (ruleNames file) file) l.start := by
  obtain ⟨rules, spans, start⟩ := l
  simp only [lower, clean_bind, clean_findings, clean_pure, lowerRules_clean, ruleNames,
    Lowered.mk.injEq]
  constructor
  · rintro ⟨_, hnames, rules, hrules, start, hstart, rfl, rfl, rfl⟩
    exact ⟨hnames, hrules, rfl, hstart⟩
  · rintro ⟨hnames, hrules, rfl, hstart⟩
    exact ⟨(), hnames, rules, hrules, start, hstart, rfl, rfl, rfl⟩

end TextGrammar.Compile
