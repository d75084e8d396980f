import Mathlib.Data.List.Dedup
import TextGrammar.Proofs.Compile.ActionFindings

/-! # What is found in a source

Resolving the names of a source finds nothing exactly if its rules are named apart, their bodies
are legal, and one of them is designated as the start rule. -/

namespace TextGrammar.Compile
open Source (LegalBody boundNames)
variable {names : List String}

theorem fieldNames_eq_nil {f : Source.Field} (h : isBound f = false) : fieldNames f = [] := by
  simpa [isBound] using h

theorem mem_boundNames {fields : List Source.Field} {name : String} :
    name ∈ boundNames fields ↔ ∃ f ∈ fields, name ∈ fieldNames f := by
  simp only [boundNames, List.mem_flatMap, List.mem_dedup]

/-- The names of a sequence are apart if those of each field are apart from those before it. -/
theorem nodup_boundNames_append {front : List Source.Field} {f : Source.Field} :
    (boundNames (front ++ [f])).Nodup ↔
      (boundNames front).Nodup ∧ ∀ name ∈ fieldNames f, name ∉ boundNames front := by
  have happend : boundNames (front ++ [f]) = boundNames front ++ (fieldNames f).dedup := by
    simp [boundNames]
  rw [happend, List.nodup_append]
  constructor
  · rintro ⟨hfront, -, hapart⟩
    exact ⟨hfront, fun name hname hmem => hapart name hmem name (List.mem_dedup.2 hname) rfl⟩
  · rintro ⟨hfront, hfresh⟩
    refine ⟨hfront, List.nodup_dedup _, ?_⟩
    rintro name hmem _ hname rfl
    exact hfresh name (List.mem_dedup.1 hname) hmem

theorem nodup_boundNames_front {front back : List Source.Field}
    (h : (boundNames (front ++ back)).Nodup) : (boundNames front).Nodup := by
  rw [boundNames, List.flatMap_append] at h
  exact h.of_append_left

/-- A field that has names can be bound where none of them is taken. -/
theorem exists_bindField {scope : Scope} {f : Source.Field} {key : Source.Name}
    (hkey : bindingKey? f = some key) (hfree : ∀ name ∈ fieldNames f, scope.lookup name = none)
    (slot : Nat) : ∃ after, Clean (bindField scope key f.1 slot) after := by
  have hnames := mem_fieldNames hkey
  have hfirst : scope.lookup key.text = none := hfree _ ((hnames _).2 (.inl rfl))
  unfold bindField
  cases hlabel : f.1 with
  | none => exact ⟨_, clean_bind.2 ⟨_, bindName_clean.2 ⟨hfirst, rfl⟩, clean_pure.2 rfl⟩⟩
  | some label =>
    by_cases hsame : label.text = key.text
    · refine ⟨(key.text, slot) :: scope, clean_bind.2 ⟨_, bindName_clean.2 ⟨hfirst, rfl⟩, ?_⟩⟩
      simp only [hsame, if_true]
      exact clean_pure.2 rfl
    · have hsecond : scope.lookup label.text = none :=
        hfree _ ((hnames _).2 (.inr ⟨label, hlabel, rfl⟩))
      refine ⟨(label.text, slot) :: (key.text, slot) :: scope,
        clean_bind.2 ⟨_, bindName_clean.2 ⟨hfirst, rfl⟩, ?_⟩⟩
      simp only [hsame, if_false]
      exact bindName_clean.2 ⟨by rw [lookup_cons, if_neg hsame, hsecond], rfl⟩

theorem lookup_eq_none {scope : Scope} {front : List Source.Field} (h : Lists scope front)
    {name : String} : scope.lookup name = none ↔ name ∉ boundNames front := by
  rw [mem_boundNames, ← lists_lookup h, ← Option.isSome_iff_exists, Option.not_isSome_iff_eq_none]

/-- The fields of a sequence that is resolved have their names apart. -/
theorem lowerFields_nodup {outer : List Scope} {fields front : List Source.Field}
    {own final : Scope} {total : Nat} {lowered : List Field} (hown : Lists own front)
    (hfront : (boundNames front).Nodup)
    (h : Clean (lowerFields names outer own (bound front).length fields) (final, total, lowered)) :
    (boundNames (front ++ fields)).Nodup := by
  induction fields generalizing front own lowered with
  | nil => rwa [List.append_nil]
  | cons f rest ih =>
    obtain ⟨label, p⟩ := f
    rw [List.append_cons]
    obtain ⟨q, -, ⟨key, own', more, hkey, hbind, hmore, rfl⟩ | ⟨more, hkey, hmore, rfl⟩⟩ :=
      lowerFields_cons_clean.1 h
    · rw [← length_bound_key hkey] at hmore
      refine ih (hown.bind hkey hbind) (nodup_boundNames_append.2 ⟨hfront, ?_⟩) hmore
      intro name hname
      exact (lookup_eq_none hown).1 ((bindField_clean hkey hbind name).2 hname)
    · have hbound := bindingKey?_eq_none.1 hkey
      rw [← length_bound_free hkey] at hmore
      refine ih (hown.skip hbound) (nodup_boundNames_append.2 ⟨hfront, ?_⟩) hmore
      rw [fieldNames_eq_nil hbound]
      nofun

/-- A body that is resolved is legal: every part of it is resolved where it stands. -/
theorem legalBody_of_clean {root : Source.Pattern} {top : Pattern}
    (h : Clean (lowerPattern names [] root) top) : LegalBody names root := by
  have hpart : ∀ {fronts p}, Inside root fronts p →
      ∃ scopes q, List.Forall₂ Lists scopes fronts ∧ Resolves names scopes p q := by
    intro fronts p hp
    obtain ⟨q, hq⟩ := hp.within h
    obtain ⟨scopes, hscopes, hclean⟩ := hq.resolved h
    exact ⟨scopes, q, hscopes, lowerPattern_clean.1 hclean⟩
  constructor
  · intro fronts span name hp
    obtain ⟨scopes, q, -, hq⟩ := hpart hp
    cases hq with
    | leaf hleaf => exact .inl (by rw [hleaf]; rfl)
    | rule hindex => exact .inr (exists_ruleIndex?.1 ⟨_, hindex⟩).2
  · intro fronts span p newName hp
    obtain ⟨scopes, q, -, hq⟩ := hpart hp
    cases hq with
    | renamed hindex => exact ⟨_, _, rfl, exists_ruleIndex?.1 ⟨_, hindex⟩⟩
  · intro fronts span fields action hp
    obtain ⟨scopes, q, -, hq⟩ := hpart hp
    cases hq with
    | sequence hfields | action hfields =>
      exact lowerFields_nodup lists_nil List.nodup_nil hfields
  · intro fronts span fields e hp
    obtain ⟨scopes, q, hscopes, hq⟩ := hpart hp
    cases hq with
    | action hfields hbody =>
      obtain ⟨hown, -⟩ := lowerFields_clean lists_nil hfields
      exact (lowerAction_findings (.cons hown hscopes) e).1 (clean_iff.1 hbody).2

section
variable {root : Source.Pattern}

mutual

/-- Every part of a legal body is resolved. -/
theorem exists_lowerPattern (hroot : LegalBody names root) :
    ∀ (p : Source.Pattern) {fronts : List (List Source.Field)} {scopes : List Scope},
      Inside root fronts p → List.Forall₂ Lists scopes fronts →
      ∃ q, Clean (lowerPattern names scopes p) q
  | .name span name, _, _, hp, _ => by
    simp only [lowerPattern_clean]
    cases hleaf : Leaf.ofName? name with
    | some l => exact ⟨_, .leaf hleaf⟩
    | none =>
      have hname : name ∈ names := (hroot.known hp).resolve_left (by rw [hleaf]; nofun)
      obtain ⟨index, hindex⟩ := exists_ruleIndex?.2 ⟨hleaf, hname⟩
      exact ⟨_, .rule hindex⟩
  | .literal _ _, _, _, _, _ => ⟨_, lowerPattern_clean.2 .literal⟩
  | .sequence _ fields none, _, _, hp, hscopes => by
    obtain ⟨final, total, lowered, hfields⟩ := exists_lowerFields hroot fields hp hscopes lists_nil
    exact ⟨_, lowerPattern_clean.2 (.sequence hfields)⟩
  | .sequence _ fields (some e), _, _, hp, hscopes => by
    obtain ⟨final, total, lowered, hfields⟩ := exists_lowerFields hroot fields hp hscopes lists_nil
    obtain ⟨hfinal, -⟩ := lowerFields_clean lists_nil hfields
    have hquiet := (lowerAction_findings (.cons hfinal hscopes) e).2 (hroot.action hp)
    exact ⟨_, lowerPattern_clean.2 (.action hfields (clean_iff.2 ⟨rfl, hquiet⟩))⟩
  | .repetition _ body, _, _, hp, hscopes => by
    obtain ⟨q, hq⟩ := exists_lowerPattern hroot body (.repetition hp) hscopes
    exact ⟨_, lowerPattern_clean.2 (.repetition hq)⟩
  | .choice _ alternatives, _, _, hp, hscopes => by
    have hall : Inside root _ (.choice _ ([] ++ alternatives)) := hp
    obtain ⟨qs, hqs⟩ := exists_lowerPatterns hroot alternatives hall hscopes
    exact ⟨_, lowerPattern_clean.2 (.choice hqs)⟩
  | .negation _ body, _, _, hp, hscopes => by
    obtain ⟨q, hq⟩ := exists_lowerPattern hroot body (.negation hp) hscopes
    exact ⟨_, lowerPattern_clean.2 (.negation hq)⟩
  | .rename _ body newName, _, _, hp, _ => by
    obtain ⟨inner, name, rfl, hname⟩ := hroot.renamed hp
    obtain ⟨index, hindex⟩ := exists_ruleIndex?.2 hname
    exact ⟨_, lowerPattern_clean.2 (.renamed hindex)⟩

theorem exists_lowerPatterns (hroot : LegalBody names root) :
    ∀ (ps : List Source.Pattern) {front : List Source.Pattern} {span : Span}
      {fronts : List (List Source.Field)} {scopes : List Scope},
      Inside root fronts (.choice span (front ++ ps)) → List.Forall₂ Lists scopes fronts →
      ∃ qs, Clean (lowerPatterns names scopes ps) qs
  | [], _, _, _, _, _, _ => ⟨[], clean_pure.2 rfl⟩
  | p :: ps, _, _, _, _, hps, hscopes => by
    obtain ⟨q, hq⟩ := exists_lowerPattern hroot p (.alternative hps) hscopes
    rw [List.append_cons] at hps
    obtain ⟨qs, hqs⟩ := exists_lowerPatterns hroot ps hps hscopes
    exact ⟨q :: qs, lowerPatterns_clean.2 (.cons hq (lowerPatterns_clean.1 hqs))⟩

theorem exists_lowerFields (hroot : LegalBody names root) :
    ∀ (fields : List (Option Source.Name × Source.Pattern)) {front : List Source.Field}
      {span : Span} {action : Option Source.Expr} {fronts : List (List Source.Field)}
      {scopes : List Scope} {own : Scope},
      Inside root fronts (.sequence span (front ++ fields) action) →
      List.Forall₂ Lists scopes fronts → Lists own front →
      ∃ final total lowered, Clean (lowerFields names scopes own (bound front).length fields)
        (final, total, lowered)
  | [], _, _, _, _, _, own, _, _, _ => ⟨own, _, [], clean_pure.2 rfl⟩
  | (label, p) :: rest, front, _, _, _, _, own, hp, hscopes, hown => by
    obtain ⟨q, hq⟩ := exists_lowerPattern hroot p (.field hp) (.cons hown hscopes)
    have hnodup := hroot.bound hp
    rw [List.append_cons] at hp hnodup
    simp only [lowerFields_cons_clean]
    cases hkey : bindingKey? (label, p) with
    | some key =>
      have hfresh := (nodup_boundNames_append.1 (nodup_boundNames_front hnodup)).2
      obtain ⟨own', hbind⟩ := exists_bindField hkey
        (fun name hname => (lookup_eq_none hown).2 (hfresh name hname)) (bound front).length
      obtain ⟨final, total, more, hmore⟩ :=
        exists_lowerFields hroot rest hp hscopes (hown.bind hkey hbind)
      rw [length_bound_key hkey] at hmore
      exact ⟨final, total, _, q, hq, .inl ⟨key, own', more, rfl, hbind, hmore, rfl⟩⟩
    | none =>
      obtain ⟨final, total, more, hmore⟩ :=
        exists_lowerFields hroot rest hp hscopes (hown.skip (bindingKey?_eq_none.1 hkey))
      rw [length_bound_free hkey] at hmore
      exact ⟨final, total, _, q, hq, .inr ⟨more, rfl, hmore, rfl⟩⟩

end

end

theorem legalBody_iff {root : Source.Pattern} :
    LegalBody names root ↔ ∃ q, Clean (lowerPattern names [] root) q := by
  constructor
  · intro h
    exact exists_lowerPattern h root .root .nil
  · rintro ⟨q, hq⟩
    exact legalBody_of_clean hq

/-- Rules are named without findings if no name is that of a leaf type, and all are fresh. -/
theorem ruleNameFindings_eq_nil {earlier : List String} {rules : List Source.Rule} :
    ruleNameFindings earlier rules = [] ↔
      (∀ name ∈ rules.map (·.name.text), Leaf.ofName? name = none) ∧
        FreshNames earlier (rules.map (·.name.text)) := by
  induction rules generalizing earlier with
  | nil => simp [ruleNameFindings, FreshNames]
  | cons r rest ih =>
    rw [ruleNameFindings, List.append_eq_nil_iff, ih, List.map_cons, freshNames_cons,
      List.forall_mem_cons]
    cases hleaf : Leaf.ofName? r.name.text with
    | some l => simp
    | none =>
      by_cases hname : r.name.text ∈ earlier
      · simp [hname]
      · simp [hname]

theorem exists_rules {sources : List Source.Rule} :
    (∃ rules, List.Forall₂ (ResolvesRule names) sources rules) ↔
      ∀ source ∈ sources, LegalBody names source.body := by
  induction sources with
  | nil => simp
  | cons source sources ih =>
    rw [List.forall_mem_cons, ← ih, legalBody_iff]
    constructor
    · rintro ⟨_, h⟩
      cases h with
      | cons hr hrest => exact ⟨⟨_, hr.2⟩, _, hrest⟩
    · rintro ⟨⟨q, hq⟩, rules, hrules⟩
      exact ⟨⟨source.name.text, q⟩ :: rules, .cons ⟨rfl, hq⟩ hrules⟩

end TextGrammar.Compile
