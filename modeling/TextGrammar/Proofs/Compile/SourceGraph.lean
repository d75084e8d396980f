import TextGrammar.Proofs.Compile.LeftRecursion
import TextGrammar.Proofs.Compile.Legality

/-! # The graph of a source

What a pattern of a source may match without consuming, and which rules it may enter before that,
is told without numbers in the source, and by numbers in the table it is resolved to. Both come to
the same, so the search for left recursion closes a cycle exactly if the source has one. -/

namespace TextGrammar.Compile
open Source (LeadsTo)

/-- A table of rules is what some rules of a source are resolved to, which have names of their own
that are no leaf types. -/
structure Tabled (sources : List Source.Rule) (rules : List Rule) : Prop where
  distinct : (sources.map (·.name.text)).Nodup
  unreserved : ∀ name ∈ sources.map (·.name.text), Leaf.ofName? name = none
  resolved : List.Forall₂ (ResolvesRule (sources.map (·.name.text))) sources rules

section
variable {sources : List Source.Rule} {rules : List Rule}

theorem source_of_ruleIndex? {name : String} {i : Nat}
    (h : ruleIndex? (sources.map (·.name.text)) name = some i) :
    ∃ source, sources[i]? = some source ∧ source.name.text = name := by
  have hname := getElem?_of_ruleIndex? h
  rwa [List.getElem?_map, Option.map_eq_some_iff] at hname

/-- A rule is what its name refers to. -/
theorem Tabled.index_of_name (h : Tabled sources rules) {i : Nat} {source : Source.Rule}
    (hsource : sources[i]? = some source) :
    ruleIndex? (sources.map (·.name.text)) source.name.text = some i := by
  have hname : source.name.text ∈ sources.map (·.name.text) :=
    List.mem_map_of_mem (List.mem_of_getElem? hsource)
  obtain ⟨j, hj⟩ := exists_ruleIndex?.2 ⟨h.unreserved _ hname, hname⟩
  have hsame : (sources.map (·.name.text))[j]? = (sources.map (·.name.text))[i]? := by
    rw [getElem?_of_ruleIndex? hj, List.getElem?_map, hsource, Option.map_some]
  rw [hj, (List.getElem?_inj (ruleIndex?_lt hj) h.distinct).1 hsame]

/-- The rules of a source with one name are the one at the place that the name refers to. -/
theorem Tabled.eq_of_name (h : Tabled sources rules) {i : Nat} {r : Source.Rule} (hr : r ∈ sources)
    (hindex : ruleIndex? (sources.map (·.name.text)) r.name.text = some i) :
    sources[i]? = some r := by
  obtain ⟨j, hj⟩ := List.getElem?_of_mem hr
  rwa [Option.some.inj (hindex.symm.trans (h.index_of_name hj))]

end

section
variable {names : List String} {outer : List Scope}

/-- The fields of a sequence are resolved one by one. -/
theorem lowerFields_forall₂ {fields : List Source.Field} {own final : Scope} {slots total : Nat}
    {lowered : List Field}
    (h : Clean (lowerFields names outer own slots fields) (final, total, lowered)) :
    List.Forall₂ (fun f l => ∃ scope, Clean (lowerPattern names (scope :: outer) f.2) l.2)
      fields lowered := by
  induction fields generalizing own slots lowered with
  | nil =>
    obtain ⟨⟨⟩⟩ := clean_pure.1 h
    exact .nil
  | cons f rest ih =>
    obtain ⟨label, p⟩ := f
    obtain ⟨q, hq, ⟨key, own', more, -, -, hmore, rfl⟩ | ⟨more, -, hmore, rfl⟩⟩ :=
      lowerFields_cons_clean.1 h
    · exact .cons ⟨own, hq⟩ (ih hmore)
    · exact .cons ⟨own, hq⟩ (ih hmore)

end

section
variable {sources : List Source.Rule} {rules : List Rule} {known : List Nat}

theorem areNullable_iff {fields : List Field} :
    areNullable known fields = true ↔ ∀ f ∈ fields, isNullable known f.2 = true := by
  induction fields with
  | nil => simp [areNullable]
  | cons f rest ih => rw [areNullable, Bool.and_eq_true, ih, List.forall_mem_cons]

theorem anyNullable_iff {ps : List Pattern} :
    anyNullable known ps = true ↔ ∃ p ∈ ps, isNullable known p = true := by
  induction ps with
  | nil => simp [anyNullable]
  | cons p ps ih => simp [anyNullable, ih]

/-- What may match without consuming in the source does so in the table. -/
theorem Tabled.isNullable_of_nullable (h : Tabled sources rules) (hclosed : Closed rules known)
    {p : Source.Pattern} (hp : Source.Nullable sources p) {outer : List Scope} {q : Pattern}
    (hq : Clean (lowerPattern (sources.map (·.name.text)) outer p) q) :
    isNullable known q = true := by
  induction hp generalizing outer q with
  | @name _ r hr _ ih =>
    cases lowerPattern_clean.1 hq with
    | leaf hleaf =>
      rw [h.unreserved _ (List.mem_map_of_mem hr)] at hleaf
      cases hleaf
    | rule hindex =>
      obtain ⟨rule, hrule, -, hbody⟩ :=
        getElem?_of_resolvesRule h.resolved (h.eq_of_name hr hindex)
      simpa [isNullable] using hclosed _ rule hrule (ih hbody)
  | literal =>
    cases lowerPattern_clean.1 hq with
    | literal => rfl
  | sequence _ ih =>
    cases lowerPattern_clean.1 hq with
    | sequence hfields | action hfields =>
      rw [isNullable, areNullable_iff]
      intro l hl
      obtain ⟨f, hf, scope, hclean⟩ := exists_of_forall₂_right (lowerFields_forall₂ hfields) hl
      exact ih f hf hclean
  | repetition =>
    cases lowerPattern_clean.1 hq with
    | repetition => rfl
  | choice hp _ ih =>
    cases lowerPattern_clean.1 hq with
    | choice hps =>
      obtain ⟨l, hl, hclean⟩ := exists_of_forall₂_left (lowerPatterns_clean.1 hps) hp
      rw [isNullable, anyNullable_iff]
      exact ⟨l, hl, ih hclean⟩
  | negation =>
    cases lowerPattern_clean.1 hq with
    | negation => rfl
  | rename _ ih =>
    cases lowerPattern_clean.1 hq with
    | @renamed _ inner name _ index hindex =>
      have hbare : Clean (lowerPattern (sources.map (·.name.text)) outer (.name inner name))
          (.rule index none) := lowerPattern_clean.2 (.rule hindex)
      have hnullable := ih hbare
      rwa [isNullable] at hnullable ⊢

def NullableAt (sources : List Source.Rule) (i : Nat) : Prop :=
  ∀ source, sources[i]? = some source → Source.Nullable sources source.body

theorem nullable_of_mem (hknown : ∀ i ∈ known, NullableAt sources i) {span : Span} {name : String}
    {i : Nat} (hindex : ruleIndex? (sources.map (·.name.text)) name = some i)
    (hnullable : isNullable known (.rule i none) = true) :
    Source.Nullable sources (.name span name) := by
  obtain ⟨source, hsource, rfl⟩ := source_of_ruleIndex? hindex
  rw [isNullable, List.contains_iff_mem] at hnullable
  exact .name (List.mem_of_getElem? hsource) (hknown i hnullable source hsource)

mutual

/-- What may match without consuming in a table does so in the source. -/
theorem nullable_of_isNullable (hknown : ∀ i ∈ known, NullableAt sources i) :
    ∀ (p : Source.Pattern) {outer : List Scope} {q : Pattern},
      Clean (lowerPattern (sources.map (·.name.text)) outer p) q → isNullable known q = true →
      Source.Nullable sources p
  | .name _ name, _, _, hq, hnullable => by
    cases lowerPattern_clean.1 hq with
    | leaf => cases hnullable
    | rule hindex => exact nullable_of_mem hknown hindex hnullable
  | .literal _ text, _, _, hq, hnullable => by
    cases lowerPattern_clean.1 hq with
    | literal =>
      rw [isNullable, String.isEmpty_iff] at hnullable
      rw [hnullable]
      exact .literal
  | .sequence _ fields _, _, _, hq, hnullable => by
    cases lowerPattern_clean.1 hq with
    | sequence hfields | action hfields =>
      exact .sequence (nullable_of_areNullable hknown fields
        (lowerFields_forall₂ hfields) hnullable)
  | .repetition _ _, _, _, _, _ => .repetition
  | .choice _ alternatives, _, _, hq, hnullable => by
    cases lowerPattern_clean.1 hq with
    | choice hps =>
      obtain ⟨p, hp, h⟩ :=
        nullable_of_anyNullable hknown alternatives (lowerPatterns_clean.1 hps) hnullable
      exact .choice hp h
  | .negation _ _, _, _, _, _ => .negation
  | .rename _ body newName, _, _, hq, hnullable => by
    cases lowerPattern_clean.1 hq with
    | renamed hindex => exact .rename (nullable_of_mem hknown hindex hnullable)

theorem nullable_of_areNullable (hknown : ∀ i ∈ known, NullableAt sources i) :
    ∀ (fields : List (Option Source.Name × Source.Pattern)) {outer : List Scope}
      {lowered : List Field},
      List.Forall₂ (fun f l => ∃ scope,
        Clean (lowerPattern (sources.map (·.name.text)) (scope :: outer) f.2) l.2) fields lowered →
      areNullable known lowered = true → ∀ f ∈ fields, Source.Nullable sources f.2
  | [], _, _, _, _ => nofun
  | f :: rest, _, _, .cons ⟨scope, hf⟩ hrest, hnullable => by
    rw [areNullable, Bool.and_eq_true] at hnullable
    exact List.forall_mem_cons.2 ⟨nullable_of_isNullable hknown f.2 hf hnullable.1,
      nullable_of_areNullable hknown rest hrest hnullable.2⟩

theorem nullable_of_anyNullable (hknown : ∀ i ∈ known, NullableAt sources i) :
    ∀ (ps : List Source.Pattern) {outer : List Scope} {qs : List Pattern},
      List.Forall₂ (fun p q => Clean (lowerPattern (sources.map (·.name.text)) outer p) q) ps qs →
      anyNullable known qs = true → ∃ p ∈ ps, Source.Nullable sources p
  | [], _, _, .nil, hnullable => nomatch hnullable
  | p :: ps, _, _, .cons hp hps, hnullable => by
    rw [anyNullable, Bool.or_eq_true] at hnullable
    rcases hnullable with hfirst | hrest
    · exact ⟨p, List.mem_cons_self, nullable_of_isNullable hknown p hp hfirst⟩
    · obtain ⟨other, hother, h⟩ := nullable_of_anyNullable hknown ps hps hrest
      exact ⟨other, List.mem_cons_of_mem _ hother, h⟩

end

/-- The rules that are nullable in the table are so in the source. -/
theorem Tabled.nullableAt (h : Tabled sources rules) :
    ∀ i ∈ nullableRules rules, NullableAt sources i := by
  refine nullableRules_inherit fun known hknown i r hr hnullable source hsource => ?_
  obtain ⟨other, hother, -, hbody⟩ := resolvesRule_of_getElem? h.resolved hr
  cases hsource.symm.trans hother
  exact nullable_of_isNullable hknown source.body hbody hnullable

/-- A pattern may match without consuming in the table exactly if it may in the source. -/
theorem Tabled.isNullable_iff (h : Tabled sources rules) {p : Source.Pattern} {outer : List Scope}
    {q : Pattern} (hq : Clean (lowerPattern (sources.map (·.name.text)) outer p) q) :
    isNullable (nullableRules rules) q = true ↔ Source.Nullable sources p := by
  constructor
  · exact nullable_of_isNullable h.nullableAt p hq
  · exact fun hp => h.isNullable_of_nullable (nullableRules_closed rules) hp hq

end

section
variable {sources : List Source.Rule} {rules : List Rule}

/-- A sequence may enter what has a name through one of its fields. -/
def EntersThrough (sources : List Source.Rule) (name : String) (fields : List Source.Field) :
    Prop :=
  ∃ front f back, fields = front ++ f :: back ∧ (∀ g ∈ front, Source.Nullable sources g.2) ∧
    Source.Enters sources name f.2

theorem entersThrough_cons {name : String} {f : Source.Field} {rest : List Source.Field} :
    EntersThrough sources name (f :: rest) ↔
      Source.Enters sources name f.2 ∨
        Source.Nullable sources f.2 ∧ EntersThrough sources name rest := by
  constructor
  · rintro ⟨front, g, back, heq, hfront, hg⟩
    cases front with
    | nil =>
      cases heq
      exact .inl hg
    | cons first front =>
      cases heq
      have hparts := List.forall_mem_cons.1 hfront
      exact .inr ⟨hparts.1, front, g, back, rfl, hparts.2, hg⟩
  · rintro (hf | ⟨hf, front, g, back, rfl, hfront, hg⟩)
    · exact ⟨[], f, rest, rfl, nofun, hf⟩
    · exact ⟨f :: front, g, back, rfl, List.forall_mem_cons.2 ⟨hf, hfront⟩, hg⟩

theorem entersThrough_of_sequence {name : String} {span : Span} {fields : List Source.Field}
    {action : Option Source.Expr} :
    Source.Enters sources name (.sequence span fields action) ↔
      EntersThrough sources name fields := by
  constructor
  · intro h
    cases h with
    | sequence hfront hf => exact ⟨_, _, _, rfl, hfront, hf⟩
  · rintro ⟨front, f, back, rfl, hfront, hf⟩
    exact .sequence hfront hf

mutual

/-- A pattern may enter a rule in the table exactly if it may enter a name of it in the source. -/
theorem Tabled.enters_iff (h : Tabled sources rules) {j : Nat} :
    ∀ (p : Source.Pattern) {outer : List Scope} {q : Pattern},
      Clean (lowerPattern (sources.map (·.name.text)) outer p) q →
      (Enters (nullableRules rules) j q ↔ ∃ name,
        ruleIndex? (sources.map (·.name.text)) name = some j ∧ Source.Enters sources name p)
  | .name _ name, _, _, hq => by
    constructor
    · intro henters
      cases lowerPattern_clean.1 hq with
      | leaf => cases henters
      | rule hindex =>
        rw [Enters] at henters
        exact ⟨name, henters ▸ hindex, .name⟩
    · rintro ⟨_, hj, ⟨⟩⟩
      cases lowerPattern_clean.1 hq with
      | leaf hleaf =>
        rw [ruleIndex?_of_isSome (by rw [hleaf]; rfl)] at hj
        cases hj
      | rule hindex => exact Option.some.inj (hindex.symm.trans hj)
  | .literal _ _, _, _, hq => by
    cases lowerPattern_clean.1 hq with
    | literal =>
      constructor
      · exact False.elim
      · rintro ⟨_, -, ⟨⟩⟩
  | .sequence _ fields _, _, _, hq => by
    simp only [entersThrough_of_sequence]
    cases lowerPattern_clean.1 hq with
    | sequence hfields | action hfields =>
      exact h.entersFields_iff fields (lowerFields_forall₂ hfields)
  | .repetition _ body, _, _, hq => by
    cases lowerPattern_clean.1 hq with
    | repetition hbody =>
      rw [Enters, h.enters_iff body hbody]
      exact exists_congr fun name => and_congr_right fun _ =>
        ⟨.repetition, fun | .repetition hp => hp⟩
  | .choice _ alternatives, _, _, hq => by
    cases lowerPattern_clean.1 hq with
    | choice hps =>
      rw [Enters, h.entersAny_iff alternatives (lowerPatterns_clean.1 hps)]
      refine exists_congr fun name => and_congr_right fun _ => ⟨?_, ?_⟩
      · rintro ⟨p, hp, henters⟩
        exact .choice hp henters
      · rintro ⟨⟩
        exact ⟨_, ‹_›, ‹_›⟩
  | .negation _ body, _, _, hq => by
    cases lowerPattern_clean.1 hq with
    | negation hbody =>
      rw [Enters, h.enters_iff body hbody]
      exact exists_congr fun name => and_congr_right fun _ => ⟨.negation, fun | .negation hp => hp⟩
  | .rename _ body newName, _, _, hq => by
    cases lowerPattern_clean.1 hq with
    | @renamed _ _ name _ _ hindex =>
      constructor
      · intro henters
        rw [Enters] at henters
        exact ⟨name, henters ▸ hindex, .rename .name⟩
      · rintro ⟨_, hj, henters⟩
        cases henters with
        | rename hname =>
          cases hname
          exact Option.some.inj (hindex.symm.trans hj)

theorem Tabled.entersFields_iff (h : Tabled sources rules) {j : Nat} :
    ∀ (fields : List (Option Source.Name × Source.Pattern)) {outer : List Scope}
      {lowered : List Field},
      List.Forall₂ (fun f l => ∃ scope,
        Clean (lowerPattern (sources.map (·.name.text)) (scope :: outer) f.2) l.2) fields lowered →
      (EntersFields (nullableRules rules) j lowered ↔ ∃ name,
        ruleIndex? (sources.map (·.name.text)) name = some j ∧ EntersThrough sources name fields)
  | [], _, _, .nil => by
    constructor
    · exact False.elim
    · rintro ⟨_, -, front, _, _, heq, -⟩
      cases front <;> cases heq
  | f :: rest, _, _, .cons ⟨scope, hf⟩ hrest => by
    rw [EntersFields, h.enters_iff f.2 hf, h.isNullable_iff hf, h.entersFields_iff rest hrest]
    simp only [entersThrough_cons]
    grind

theorem Tabled.entersAny_iff (h : Tabled sources rules) {j : Nat} :
    ∀ (ps : List Source.Pattern) {outer : List Scope} {qs : List Pattern},
      List.Forall₂ (fun p q => Clean (lowerPattern (sources.map (·.name.text)) outer p) q) ps qs →
      (EntersAny (nullableRules rules) j qs ↔ ∃ name,
        ruleIndex? (sources.map (·.name.text)) name = some j ∧
          ∃ p ∈ ps, Source.Enters sources name p)
  | [], _, _, .nil => by
    constructor
    · exact False.elim
    · rintro ⟨_, -, _, ⟨⟩, -⟩
  | p :: ps, _, _, .cons hp hps => by
    rw [EntersAny, h.enters_iff p hp, h.entersAny_iff ps hps]
    grind

end

/-- A rule leads to another one in the table exactly if it does by its name in the source. -/
theorem Tabled.mem_enteredFrom_iff (h : Tabled sources rules) {i j : Nat} {name : String}
    (hname : Compile.ruleIndex? (sources.map (·.name.text)) name = some i) :
    j ∈ enteredFrom rules (nullableRules rules) i ↔ ∃ other,
      Compile.ruleIndex? (sources.map (·.name.text)) other = some j ∧
        LeadsTo sources name other := by
  rw [mem_enteredFrom]
  constructor
  · rintro ⟨r, hr, henters⟩
    obtain ⟨source, hsource, -, hbody⟩ := resolvesRule_of_getElem? h.resolved hr
    obtain ⟨other, hother, henters⟩ := (h.enters_iff source.body hbody).1 henters
    obtain ⟨same, hsame, hname⟩ := source_of_ruleIndex? hname
    cases hsource.symm.trans hsame
    exact ⟨other, hother, source, List.mem_of_getElem? hsource, hname, henters⟩
  · rintro ⟨other, hother, source, hsource, rfl, henters⟩
    obtain ⟨r, hr, -, hbody⟩ := getElem?_of_resolvesRule h.resolved (h.eq_of_name hsource hname)
    exact ⟨r, hr, (h.enters_iff source.body hbody).2 ⟨other, hother, henters⟩⟩

theorem Tabled.transGen_of_follows (h : Tabled sources rules) {i j : Nat} {name : String}
    (hname : Compile.ruleIndex? (sources.map (·.name.text)) name = some i)
    (hij : Follows rules (nullableRules rules) i j) :
    ∃ other, Compile.ruleIndex? (sources.map (·.name.text)) other = some j ∧
      Relation.TransGen (LeadsTo sources) name other := by
  induction hij with
  | single hedge =>
    obtain ⟨other, hother, hleads⟩ := (h.mem_enteredFrom_iff hname).1 hedge
    exact ⟨other, hother, .single hleads⟩
  | tail _ hedge ih =>
    obtain ⟨middle, hmiddle, hway⟩ := ih
    obtain ⟨other, hother, hleads⟩ := (h.mem_enteredFrom_iff hmiddle).1 hedge
    exact ⟨other, hother, hway.tail hleads⟩

theorem Tabled.index_of_leadsTo (h : Tabled sources rules) {name other : String}
    (hleads : LeadsTo sources name other) :
    ∃ i, Compile.ruleIndex? (sources.map (·.name.text)) name = some i := by
  obtain ⟨source, hsource, rfl, -⟩ := hleads
  obtain ⟨i, hi⟩ := List.getElem?_of_mem hsource
  exact ⟨i, h.index_of_name hi⟩

theorem Tabled.follows_of_transGen (h : Tabled sources rules) {j : Nat} {name other : String}
    (hother : Compile.ruleIndex? (sources.map (·.name.text)) other = some j)
    (hway : Relation.TransGen (LeadsTo sources) name other) :
    ∃ i, Compile.ruleIndex? (sources.map (·.name.text)) name = some i ∧
      Follows rules (nullableRules rules) i j := by
  induction hway using Relation.TransGen.head_induction_on with
  | single hleads =>
    obtain ⟨i, hi⟩ := h.index_of_leadsTo hleads
    exact ⟨i, hi, .single ((h.mem_enteredFrom_iff hi).2 ⟨other, hother, hleads⟩)⟩
  | head hleads _ ih =>
    obtain ⟨k, hk, hrest⟩ := ih
    obtain ⟨i, hi⟩ := h.index_of_leadsTo hleads
    exact ⟨i, hi, .head ((h.mem_enteredFrom_iff hi).2 ⟨_, hk, hleads⟩) hrest⟩

/-- A cycle is reported for the table exactly if some rule of the source comes back to itself. -/
theorem Tabled.cycles_eq_nil_iff (h : Tabled sources rules) :
    cycles rules (nullableRules rules) = [] ↔
      ∀ name, ¬Relation.TransGen (LeadsTo sources) name name := by
  rw [Compile.cycles_eq_nil_iff]
  constructor
  · intro hacyclic name hway
    obtain ⟨_, hleads, -⟩ := Relation.TransGen.head'_iff.1 hway
    obtain ⟨i, hi⟩ := h.index_of_leadsTo hleads
    obtain ⟨k, hk, hfollows⟩ := h.follows_of_transGen hi hway
    cases hi.symm.trans hk
    exact hacyclic i hfollows
  · intro hacyclic i hfollows
    obtain ⟨j, hedge, -⟩ := Relation.TransGen.head'_iff.1 hfollows
    obtain ⟨r, hr, -⟩ := mem_enteredFrom.1 hedge
    obtain ⟨source, hsource, -⟩ := resolvesRule_of_getElem? h.resolved hr
    have hi := h.index_of_name hsource
    obtain ⟨other, hother, hway⟩ := h.transGen_of_follows hi hfollows
    have hsame := (getElem?_of_ruleIndex? hi).symm.trans (getElem?_of_ruleIndex? hother)
    cases hsame
    exact hacyclic _ hway

end

end TextGrammar.Compile
