import TextGrammar.Proofs.Matching.Relocation
import TextGrammar.Proofs.SourceLegality

/-! # Rules in another order

What a source must be like to have a grammar is said of its rules without their order. And if the
order is changed, resolving a pattern gives the same pattern, with references to the places where
the rules are now. -/

namespace TextGrammar
open Compile (Scope ruleNames ruleIndex? lowerPattern lowerPatterns lowerFields)

namespace Source

section
variable {rules rules' : List Rule}

theorem Nullable.mono (hrules : ∀ r ∈ rules, r ∈ rules') {p : Pattern} (h : Nullable rules p) :
    Nullable rules' p := by
  induction h with
  | name hr _ ih => exact .name (hrules _ hr) ih
  | literal => exact .literal
  | sequence _ ih => exact .sequence ih
  | repetition => exact .repetition
  | choice hp _ ih => exact .choice hp ih
  | negation => exact .negation
  | rename _ ih => exact .rename ih

theorem Enters.mono (hrules : ∀ r ∈ rules, r ∈ rules') {name : String} {p : Pattern}
    (h : Enters rules name p) : Enters rules' name p := by
  induction h with
  | name => exact .name
  | sequence hfront _ ih => exact .sequence (fun f hf => (hfront f hf).mono hrules) ih
  | repetition _ ih => exact .repetition ih
  | choice hp _ ih => exact .choice hp ih
  | negation _ ih => exact .negation ih
  | rename _ ih => exact .rename ih

theorem LeadsTo.mono (hrules : ∀ r ∈ rules, r ∈ rules') {name other : String}
    (h : LeadsTo rules name other) : LeadsTo rules' name other := by
  obtain ⟨r, hr, hname, henters⟩ := h
  exact ⟨r, hrules r hr, hname, henters.mono hrules⟩

end

theorem LegalBody.mono {names names' : List String} (hnames : ∀ name ∈ names, name ∈ names')
    {root : Pattern} (h : LegalBody names root) : LegalBody names' root where
  known _ _ name hin := (h.known hin).imp_right (hnames name)
  renamed _ _ _ _ hin := by
    obtain ⟨inner, name, hp, hleaf, hname⟩ := h.renamed hin
    exact ⟨inner, name, hp, hleaf, hnames name hname⟩
  bound := h.bound
  action := h.action

/-- A source with the same rules in another order is legal as well. -/
theorem File.Legal.reordered {file : File} (h : file.Legal) {rules : List Rule}
    (hperm : rules.Perm file.rules) : Legal { file with rules } := by
  have hnames : (ruleNames { file with rules }).Perm (ruleNames file) := hperm.map _
  have hmem : ∀ name, name ∈ ruleNames file → name ∈ ruleNames { file with rules } :=
    fun _ => hnames.mem_iff.2
  exact {
    distinct := hnames.nodup_iff.2 h.distinct
    unreserved := fun name hname => h.unreserved name (hnames.mem_iff.1 hname)
    body := fun r hr => (h.body r (hperm.mem_iff.1 hr)).mono hmem
    separated := h.separated
    started := by
      obtain ⟨span, name, hstarts, hname⟩ := h.started
      exact ⟨span, name, hstarts, hmem name hname⟩
    acyclic := fun name hcycle => h.acyclic name
      (hcycle.lift id fun _ _ hleads => LeadsTo.mono (fun _ => hperm.mem_iff.1) hleads) }

end Source

namespace Compile

/-- The place that a rule has in another order of the names. A place without a rule stays. -/
def newPlace (names names' : List String) (index : Nat) : Nat :=
  (names[index]?.bind (ruleIndex? names')).getD index

theorem newPlace_of_none {names : List String} (names' : List String) {index : Nat}
    (h : names[index]? = none) : newPlace names names' index = index := by
  rw [newPlace, h, Option.bind_none, Option.getD_none]

/-- A name refers to the new place of the rule that it has referred to. -/
theorem ruleIndex?_newPlace {names names' : List String} (h : ∀ name, name ∈ names' ↔ name ∈ names)
    (name : String) :
    ruleIndex? names' name = (ruleIndex? names name).map (newPlace names names') := by
  cases hindex : ruleIndex? names name with
  | none =>
    by_contra hsome
    obtain ⟨index', hindex'⟩ := Option.ne_none_iff_exists'.1 hsome
    obtain ⟨hleaf, hname⟩ := exists_ruleIndex?.1 ⟨index', hindex'⟩
    obtain ⟨index, hfound⟩ := exists_ruleIndex?.2 ⟨hleaf, (h name).1 hname⟩
    cases hindex.symm.trans hfound
  | some index =>
    obtain ⟨hleaf, hname⟩ := exists_ruleIndex?.1 ⟨index, hindex⟩
    obtain ⟨index', hindex'⟩ := exists_ruleIndex?.2 ⟨hleaf, (h name).2 hname⟩
    rw [Option.map_some, newPlace, getElem?_of_ruleIndex? hindex, Option.bind_some, hindex',
      Option.getD_some]

section
variable {names names' : List String} {move : Nat → Nat}

mutual

/-- A pattern is resolved to the same one with its references moved. -/
theorem lowerPattern_moved
    (hindex : ∀ name, ruleIndex? names' name = (ruleIndex? names name).map move) :
    ∀ (p : Source.Pattern) {outer : List Scope} {q : Pattern},
      Clean (lowerPattern names outer p) q → Clean (lowerPattern names' outer p) (q.moved move)
  | .name _ name, _, _, h => by
    cases lowerPattern_clean.1 h with
    | leaf hleaf => exact lowerPattern_clean.2 (.leaf hleaf)
    | rule hname => exact lowerPattern_clean.2 (.rule (by rw [hindex, hname, Option.map_some]))
  | .literal _ _, _, _, h => by
    cases lowerPattern_clean.1 h
    exact lowerPattern_clean.2 .literal
  | .sequence _ fields none, _, _, h => by
    cases lowerPattern_clean.1 h with
    | sequence hfields =>
      exact lowerPattern_clean.2 (.sequence (lowerFields_moved hindex fields hfields))
  | .sequence _ fields (some _), _, _, h => by
    cases lowerPattern_clean.1 h with
    | action hfields hbody =>
      exact lowerPattern_clean.2 (.action (lowerFields_moved hindex fields hfields) hbody)
  | .repetition _ body, _, _, h => by
    cases lowerPattern_clean.1 h with
    | repetition hbody =>
      exact lowerPattern_clean.2 (.repetition (lowerPattern_moved hindex body hbody))
  | .choice _ alternatives, _, _, h => by
    cases lowerPattern_clean.1 h with
    | choice hps =>
      exact lowerPattern_clean.2 (.choice (lowerPatterns_moved hindex alternatives hps))
  | .negation _ body, _, _, h => by
    cases lowerPattern_clean.1 h with
    | negation hbody =>
      exact lowerPattern_clean.2 (.negation (lowerPattern_moved hindex body hbody))
  | .rename _ _ _, _, _, h => by
    cases lowerPattern_clean.1 h with
    | renamed hname =>
      exact lowerPattern_clean.2 (.renamed (by rw [hindex, hname, Option.map_some]))

theorem lowerPatterns_moved
    (hindex : ∀ name, ruleIndex? names' name = (ruleIndex? names name).map move) :
    ∀ (ps : List Source.Pattern) {outer : List Scope} {qs : List Pattern},
      Clean (lowerPatterns names outer ps) qs →
      Clean (lowerPatterns names' outer ps) (Pattern.allMoved move qs)
  | [], _, _, h => by
    obtain rfl := clean_pure.1 h
    exact clean_pure.2 rfl
  | p :: ps, _, _, h => by
    simp only [lowerPatterns, clean_bind, clean_pure] at h ⊢
    obtain ⟨q, hq, qs, hqs, rfl⟩ := h
    exact ⟨_, lowerPattern_moved hindex p hq, _, lowerPatterns_moved hindex ps hqs, rfl⟩

theorem lowerFields_moved
    (hindex : ∀ name, ruleIndex? names' name = (ruleIndex? names name).map move) :
    ∀ (fields : List (Option Source.Name × Source.Pattern)) {outer : List Scope}
      {own final : Scope} {slots total : Nat} {lowered : List Field},
      Clean (lowerFields names outer own slots fields) (final, total, lowered) →
      Clean (lowerFields names' outer own slots fields)
        (final, total, Pattern.fieldsMoved move lowered)
  | [], _, _, _, _, _, _, h => by
    obtain ⟨⟨⟩⟩ := clean_pure.1 h
    exact clean_pure.2 rfl
  | (_, p) :: rest, _, _, _, _, _, _, h => by
    obtain ⟨q, hq, ⟨key, own', more, hkey, hbind, hmore, rfl⟩ | ⟨more, hkey, hmore, rfl⟩⟩ :=
      lowerFields_cons_clean.1 h
    · exact lowerFields_cons_clean.2 ⟨_, lowerPattern_moved hindex p hq,
        .inl ⟨key, own', _, hkey, hbind, lowerFields_moved hindex rest hmore, rfl⟩⟩
    · exact lowerFields_cons_clean.2 ⟨_, lowerPattern_moved hindex p hq,
        .inr ⟨_, hkey, lowerFields_moved hindex rest hmore, rfl⟩⟩

end

end

section
variable {sources sources' : List Source.Rule} {rules rules' : List Rule}

/-- The first rule of a name is the one that the name refers to. -/
theorem Tabled.findIdx?_eq (h : Tabled sources rules) (name : String) :
    rules.findIdx? (·.name = name) = ruleIndex? (sources.map (·.name.text)) name := by
  have hnames : rules.map Rule.name = sources.map (·.name.text) := by
    rw [← List.forall₂_eq_eq_eq, List.forall₂_map_left_iff, List.forall₂_map_right_iff]
    exact h.resolved.flip.imp fun _ _ hr => hr.1
  have hfind : rules.findIdx? (·.name = name) =
      (sources.map (·.name.text)).findIdx? (· = name) := by
    rw [← hnames, List.findIdx?_map]
    rfl
  rw [hfind]
  unfold ruleIndex?
  split
  · rename_i hleaf
    rw [List.findIdx?_eq_none_iff]
    intro other hother
    have hunreserved := h.unreserved other hother
    rw [decide_eq_false_iff_not]
    rintro rfl
    rw [hunreserved] at hleaf
    cases hleaf
  · rfl

/-- A rule is resolved to the same one at its new place, with its references moved. -/
theorem Tabled.getElem?_newPlace (h : Tabled sources rules) (h' : Tabled sources' rules')
    (hperm : sources'.Perm sources) (index : Nat) :
    rules'[newPlace (sources.map (·.name.text)) (sources'.map (·.name.text)) index]? =
      rules[index]?.map (Rule.moved
        (newPlace (sources.map (·.name.text)) (sources'.map (·.name.text)))) := by
  have hmoved := ruleIndex?_newPlace fun _ => (hperm.map (·.name.text)).mem_iff
  cases hr : rules[index]? with
  | none =>
    have hlength : rules'.length = rules.length := by
      rw [← h'.resolved.length_eq, ← h.resolved.length_eq, hperm.length_eq]
    rw [List.getElem?_eq_none_iff, ← hlength] at hr
    have hnone : (sources.map (·.name.text))[index]? = none := by
      rw [List.getElem?_eq_none_iff, List.length_map, h.resolved.length_eq, ← hlength]
      exact hr
    rw [newPlace_of_none _ hnone, List.getElem?_eq_none_iff.2 hr, Option.map_none]
  | some r =>
    obtain ⟨source, hsource, hname, hbody⟩ := resolvesRule_of_getElem? h.resolved hr
    have hplace := hmoved source.name.text
    rw [h.index_of_name hsource, Option.map_some] at hplace
    have hsource' := h'.eq_of_name (hperm.mem_iff.2 (List.mem_of_getElem? hsource)) hplace
    obtain ⟨r', hr', hname', hbody'⟩ := getElem?_of_resolvesRule h'.resolved hsource'
    have hbodies := hbody'.symm.trans (lowerPattern_moved hmoved source.body hbody)
    rw [hr', Option.map_some, Rule.moved, hname, ← hname', ← (Checked.mk.inj hbodies).1]

end

/-- The grammars of two sources with the same rules in different orders have the same rules at
different places. -/
theorem Compiles.relocates {file : Source.File} {rules : List Source.Rule} {g g' : Grammar}
    (h : Compiles file g) (h' : Compiles { file with rules } g')
    (hperm : rules.Perm file.rules) :
    Relocates (newPlace (ruleNames file) (ruleNames { file with rules })) g g' where
  rule? := h.tabled.getElem?_newPlace h'.tabled hperm
  outside index hnone := by
    apply newPlace_of_none
    have hlength := h.tabled.resolved.length_eq
    rw [Grammar.rule?, List.getElem?_eq_none_iff] at hnone
    rw [List.getElem?_eq_none_iff, ruleNames, List.length_map, hlength]
    exact hnone
  find? name := by
    have hmoved := ruleIndex?_newPlace (fun _ => (hperm.map (·.name.text)).mem_iff) name
    rw [Grammar.find?, Grammar.find?, h.tabled.findIdx?_eq, h'.tabled.findIdx?_eq]
    exact hmoved
  start := by
    obtain ⟨-, -, -, hstarts⟩ := lower_clean.1 h.lowered
    obtain ⟨-, -, -, hstarts'⟩ := lower_clean.1 h'.lowered
    obtain ⟨-, _, name, index, hstarted, hindex, hstart⟩ := lowerStarts_clean.1 hstarts
    obtain ⟨-, _, name', index', hstarted', hindex', hstart'⟩ := lowerStarts_clean.1 hstarts'
    cases hstarted.symm.trans hstarted'
    cases hstart
    cases hstart'
    have hmoved := ruleIndex?_newPlace (fun _ => (hperm.map (·.name.text)).mem_iff) name
    rw [← ruleNames, hindex, Option.map_some] at hmoved
    exact Option.some.inj (hindex'.symm.trans hmoved)

end Compile

end TextGrammar
