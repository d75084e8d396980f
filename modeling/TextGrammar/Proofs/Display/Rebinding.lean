import TextGrammar.Proofs.Compile.Scopes
import TextGrammar.Proofs.Display.Resolving

/-! # Resolving a displayed grammar

A displayed field has the name it is bound to as its label. Where no field has a label and another
override name, every field is bound to one name, so a displayed sequence has the scope that it
had, and a displayed grammar is resolved to itself. -/

namespace TextGrammar

namespace Source

mutual

def Pattern.fields : Pattern → List Field
  | .name _ _ | .literal _ _ => []
  | .sequence _ fields _ => Pattern.fieldsWithin fields
  | .repetition _ p | .negation _ p | .rename _ p _ => p.fields
  | .choice _ alternatives => Pattern.fieldsOfAll alternatives

def Pattern.fieldsOfAll : List Pattern → List Field
  | [] => []
  | p :: ps => p.fields ++ Pattern.fieldsOfAll ps

def Pattern.fieldsWithin : List (Option Name × Pattern) → List Field
  | [] => []
  | (label, p) :: rest => (label, p) :: (p.fields ++ Pattern.fieldsWithin rest)

end

/-- A field has one name at most: an override name besides a label is the same name. -/
def HasOneName (f : Field) : Prop :=
  ∀ label ∈ f.1, ∀ newName ∈ f.2.rename?, newName.text = label.text

instance (f : Field) : Decidable (HasOneName f) :=
  inferInstanceAs (Decidable (∀ label ∈ f.1, ∀ newName ∈ f.2.rename?, newName.text = label.text))

end Source

namespace Compile
open Source (HasOneName WritesPattern WritesPatterns WritesFields WritesRule WritesGrammar)

theorem name_of_ofName? {name : String} {l : Leaf} (h : Leaf.ofName? name = some l) :
    l.name = name := by
  unfold Leaf.ofName? at h
  split at h
  · cases h
    exact Eq.symm ‹_›
  · split at h
    · cases h
      exact Eq.symm ‹_›
    · split at h
      · cases h
        exact Eq.symm ‹_›
      · cases h

theorem ofName?_name (l : Leaf) : Leaf.ofName? l.name = some l := by
  cases l <;> decide

def Calls (names : List String) (nameOf : Nat → String) : Prop :=
  ∀ name index, ruleIndex? names name = some index → nameOf index = name

section
variable {names : List String} {nameOf : Nat → String} {outer : List Scope}

/-- A pattern that writes a resolved one refers to the same name and has the same override
name. -/
theorem callee_again (hnames : Calls names nameOf) : ∀ {p : Source.Pattern} {q : Pattern},
    Clean (lowerPattern names outer p) q → ∀ {p' : Source.Pattern}, WritesPattern nameOf p' q →
      p'.callee? = p.callee? ∧ p'.rename?.map (·.text) = p.rename?.map (·.text)
  | .repetition _ body, _, h, _, hp' => by
    cases lowerPattern_clean.1 h with
    | repetition hbody =>
      cases hp' with
      | repetition hwrites =>
        have hsame := callee_again hnames hbody hwrites
        exact hsame
  | .name _ name, _, h, _, hp' => by
    cases lowerPattern_clean.1 h with
    | leaf hleaf =>
      cases hp' with
      | leaf => exact ⟨congrArg some (name_of_ofName? hleaf), rfl⟩
    | rule hindex =>
      cases hp' with
      | rule => exact ⟨congrArg some (hnames _ _ hindex), rfl⟩
  | .rename _ _ newName, _, h, _, hp' => by
    generalize htext : newName.text = text
    cases lowerPattern_clean.1 h with
    | renamed hindex =>
      rw [htext] at hp'
      cases hp' with
      | renamed => exact ⟨congrArg some (hnames _ _ hindex), congrArg some htext.symm⟩
  | .literal _ _, _, h, _, hp' => by
    cases lowerPattern_clean.1 h with
    | literal => cases hp' with
      | literal => exact ⟨rfl, rfl⟩
  | .sequence _ _ _, _, h, _, hp' => by
    cases lowerPattern_clean.1 h with
    | sequence => cases hp' with
      | sequence => exact ⟨rfl, rfl⟩
    | action => cases hp' with
      | action => exact ⟨rfl, rfl⟩
  | .choice _ _, _, h, _, hp' => by
    cases lowerPattern_clean.1 h with
    | choice => cases hp' with
      | choice => exact ⟨rfl, rfl⟩
  | .negation _ _, _, h, _, hp' => by
    cases lowerPattern_clean.1 h with
    | negation => cases hp' with
      | negation => exact ⟨rfl, rfl⟩

end

theorem label_eq_key {f : Source.Field} {key label : Source.Name} (hf : HasOneName f)
    (hkey : bindingKey? f = some key) (hlabel : f.1 = some label) : label.text = key.text := by
  unfold bindingKey? at hkey
  rw [hlabel] at hkey
  cases hrename : f.2.rename? with
  | none =>
    rw [hrename] at hkey
    cases hkey
    rfl
  | some newName =>
    rw [hrename] at hkey
    cases hkey
    exact (hf label hlabel key hrename).symm

/-- A field with one name is bound to its key alone. -/
theorem bindField_clean_iff {scope after : Scope} {f : Source.Field} {key : Source.Name}
    {slot : Nat} (hf : HasOneName f) (hkey : bindingKey? f = some key) :
    Clean (bindField scope key f.1 slot) after ↔
      scope.lookup key.text = none ∧ after = (key.text, slot) :: scope := by
  have hlabel : ∀ label, f.1 = some label → label.text = key.text :=
    fun _ => label_eq_key hf hkey
  simp only [bindField, clean_bind, bindName_clean]
  cases hcase : f.1 with
  | none =>
    simp only [clean_pure]
    constructor
    · rintro ⟨_, ⟨hnone, rfl⟩, rfl⟩
      exact ⟨hnone, rfl⟩
    · rintro ⟨hnone, rfl⟩
      exact ⟨_, ⟨hnone, rfl⟩, rfl⟩
  | some label =>
    simp only [hlabel label hcase, if_true, clean_pure]
    constructor
    · rintro ⟨_, ⟨hnone, rfl⟩, rfl⟩
      exact ⟨hnone, rfl⟩
    · rintro ⟨hnone, rfl⟩
      exact ⟨_, ⟨hnone, rfl⟩, rfl⟩

section
variable {names : List String} {nameOf : Nat → String} {outer : List Scope}

/-- A field without a key stays without one. -/
theorem bindingKey?_free (hnames : Calls names nameOf) {label : Option Source.Name}
    {p p' : Source.Pattern} {q : Pattern} (hkey : bindingKey? (label, p) = none)
    (hq : Clean (lowerPattern names outer p) q) (hp' : WritesPattern nameOf p' q) :
    bindingKey? (none, p') = none := by
  obtain ⟨hcallee, hrename⟩ := callee_again hnames hq hp'
  unfold bindingKey? at hkey ⊢
  cases hnew : p.rename? with
  | some newName =>
    rw [hnew] at hkey
    cases hkey
  | none =>
    rw [hnew, Option.map_none, Option.map_eq_none_iff] at hrename
    simp only [hnew] at hkey
    simp only [hrename, hcallee]
    cases label with
    | some label => cases hkey
    | none =>
      cases hname : p.callee? with
      | none => rfl
      | some callee =>
        simp only [hname] at hkey ⊢
        split at hkey
        · rename_i hleaf
          rw [if_pos hleaf]
        · cases hkey

/-- A displayed field has the key of the field it displays, and no other name. -/
theorem bindingKey?_bound (hnames : Calls names nameOf) {label : Option Source.Name}
    {p p' : Source.Pattern} {q : Pattern} {key label' : Source.Name}
    (hkey : bindingKey? (label, p) = some key) (hq : Clean (lowerPattern names outer p) q)
    (hp' : WritesPattern nameOf p' q) (hlabel : label'.text = key.text) :
    ∃ key', bindingKey? (some label', p') = some key' ∧ key'.text = key.text ∧
      HasOneName (some label', p') := by
  obtain ⟨hcallee, hrename⟩ := callee_again hnames hq hp'
  cases hnew : p'.rename? with
  | none =>
    refine ⟨label', by simp only [bindingKey?, hnew], hlabel, ?_⟩
    rintro _ - newName hnewName
    rw [hnew] at hnewName
    cases hnewName
  | some newName =>
    rw [hnew, Option.map_some, eq_comm, Option.map_eq_some_iff] at hrename
    obtain ⟨other, hother, htext⟩ := hrename
    have hsame : other = key := by
      simpa only [bindingKey?, hother, Option.some.injEq] using hkey
    subst hsame
    refine ⟨newName, by simp only [bindingKey?, hnew], htext.symm, ?_⟩
    rintro _ ⟨⟩ newName' hnewName
    rw [hnew] at hnewName
    cases hnewName
    rw [← htext, hlabel]

/-- A pattern of one name is resolved again wherever it stands. -/
def Repeats (names : List String) (nameOf : Nat → String) (p : Source.Pattern) : Prop :=
  ∀ ⦃outer : List Scope⦄ ⦃q : Pattern⦄, Clean (lowerPattern names outer p) q →
    ∀ p', WritesPattern nameOf p' q → Clean (lowerPattern names outer p') q

def RepeatAll (names : List String) (nameOf : Nat → String) (ps : List Source.Pattern) : Prop :=
  ∀ ⦃outer : List Scope⦄ ⦃qs : List Pattern⦄, Clean (lowerPatterns names outer ps) qs →
    ∀ ps', WritesPatterns nameOf ps' qs → Clean (lowerPatterns names outer ps') qs

def RepeatFields (names : List String) (nameOf : Nat → String) (fs : List Source.Field) : Prop :=
  ∀ ⦃outer : List Scope⦄ ⦃own final : Scope⦄ ⦃slots total : Nat⦄ ⦃gs : List Field⦄,
    Clean (lowerFields names outer own slots fs) (final, total, gs) →
    ∀ fs', WritesFields nameOf fs' gs →
      Clean (lowerFields names outer own slots fs') (final, total, gs)

theorem name_repeats (hnames : Calls names nameOf) {span : Span} {name : String} :
    Repeats names nameOf (.name span name) := by
  intro outer q h p' hp'
  rw [lowerPattern_clean] at h ⊢
  cases h with
  | leaf => cases hp' with
    | leaf => exact .leaf (ofName?_name _)
  | rule hindex => cases hp' with
    | rule =>
      rw [hnames _ _ hindex]
      exact .rule hindex

theorem rename_repeats (hnames : Calls names nameOf) {span : Span} {p : Source.Pattern}
    {newName : Source.Name} : Repeats names nameOf (.rename span p newName) := by
  intro outer q h p' hp'
  rw [lowerPattern_clean] at h ⊢
  cases h with
  | renamed hindex =>
    generalize newName.text = text at hp' ⊢
    cases hp' with
    | renamed =>
      rw [hnames _ _ hindex]
      exact .renamed hindex

theorem sequence_repeats {span : Span} {fs : List Source.Field} {action : Option Source.Expr}
    (hfs : RepeatFields names nameOf fs) : Repeats names nameOf (.sequence span fs action) := by
  intro outer q h p' hp'
  rw [lowerPattern_clean] at h ⊢
  cases h with
  | sequence hfields => cases hp' with
    | sequence hwrites => exact .sequence (hfs hfields _ hwrites)
  | action hfields hbody => cases hp' with
    | action hwrites hwrites' =>
      exact .action (hfs hfields _ hwrites) (lowerAction_again _ hbody hwrites')

theorem repetition_repeats {span : Span} {p : Source.Pattern} (hp : Repeats names nameOf p) :
    Repeats names nameOf (.repetition span p) := by
  intro outer q h p' hp'
  rw [lowerPattern_clean] at h ⊢
  cases h with
  | repetition hbody => cases hp' with
    | repetition hwrites => exact .repetition (hp hbody _ hwrites)

theorem negation_repeats {span : Span} {p : Source.Pattern} (hp : Repeats names nameOf p) :
    Repeats names nameOf (.negation span p) := by
  intro outer q h p' hp'
  rw [lowerPattern_clean] at h ⊢
  cases h with
  | negation hbody => cases hp' with
    | negation hwrites => exact .negation (hp hbody _ hwrites)

theorem choice_repeats {span : Span} {ps : List Source.Pattern} (hps : RepeatAll names nameOf ps) :
    Repeats names nameOf (.choice span ps) := by
  intro outer q h p' hp'
  rw [lowerPattern_clean] at h ⊢
  cases h with
  | choice halternatives => cases hp' with
    | choice hwrites => exact .choice (hps halternatives _ hwrites)

theorem patterns_repeat_cons {p : Source.Pattern} {ps : List Source.Pattern}
    (hp : Repeats names nameOf p) (hps : RepeatAll names nameOf ps) :
    RepeatAll names nameOf (p :: ps) := by
  intro outer qs h ps' hps'
  simp only [lowerPatterns, clean_bind, clean_pure] at h
  obtain ⟨q, hq, qs, hqs, rfl⟩ := h
  cases hps' with
  | cons hhead htail =>
    simp only [lowerPatterns, clean_bind, clean_pure]
    exact ⟨q, hp hq _ hhead, qs, hps hqs _ htail, rfl⟩

/-- A bound field is bound to the same name again, in the same slot. -/
theorem fields_repeat_cons (hnames : Calls names nameOf) {label : Option Source.Name}
    {p : Source.Pattern} {fs : List Source.Field} (hf : HasOneName (label, p))
    (hp : Repeats names nameOf p) (hfs : RepeatFields names nameOf fs) :
    RepeatFields names nameOf ((label, p) :: fs) := by
  intro outer own final slots total gs h fs' hfs'
  simp only [lowerFields, clean_bind] at h
  obtain ⟨q, hq, h⟩ := h
  cases hkey : bindingKey? (label, p) with
  | none =>
    simp only [hkey, clean_bind, clean_pure] at h
    obtain ⟨⟨final', total', gs⟩, hgs, heq⟩ := h
    cases heq
    cases hfs' with
    | free hhead htail =>
      simp only [lowerFields, bindingKey?_free hnames hkey hq hhead, clean_bind, clean_pure]
      exact ⟨q, hp hq _ hhead, _, hfs hgs _ htail, rfl⟩
  | some key =>
    simp only [hkey, clean_bind, clean_pure] at h
    obtain ⟨own', hbind, ⟨final', total', gs⟩, hgs, heq⟩ := h
    cases heq
    have hbound := (bindField_clean_iff hf hkey).1 hbind
    generalize htext : key.text = text at hfs'
    cases hfs' with
    | bound hhead htail =>
      obtain ⟨key', hkey', htext', hone⟩ := bindingKey?_bound hnames hkey hq hhead htext.symm
      rw [← htext'] at hbound
      simp only [lowerFields, hkey', clean_bind, clean_pure]
      exact ⟨q, hp hq _ hhead, own', (bindField_clean_iff hone hkey').2 hbound, _,
        hfs hgs _ htail, by rw [htext', htext]⟩

end

section
variable {names : List String} {nameOf : Nat → String}

mutual

theorem pattern_repeats (hnames : Calls names nameOf) : ∀ p : Source.Pattern,
    (∀ f ∈ p.fields, HasOneName f) → Repeats names nameOf p
  | .name _ _, _ => name_repeats hnames
  | .literal _ _, _ => by
    intro outer q h p' hp'
    obtain rfl := clean_pure.1 h
    cases hp'
    exact clean_pure.2 rfl
  | .sequence _ fields _, h => sequence_repeats (fields_repeat hnames fields h)
  | .repetition _ p, h => repetition_repeats (pattern_repeats hnames p h)
  | .choice _ alternatives, h => choice_repeats (patterns_repeat hnames alternatives h)
  | .negation _ p, h => negation_repeats (pattern_repeats hnames p h)
  | .rename _ _ _, _ => rename_repeats hnames

theorem patterns_repeat (hnames : Calls names nameOf) : ∀ ps : List Source.Pattern,
    (∀ f ∈ Source.Pattern.fieldsOfAll ps, HasOneName f) → RepeatAll names nameOf ps
  | [], _ => by
    intro outer qs h ps' hps'
    obtain rfl := clean_pure.1 h
    cases hps'
    exact clean_pure.2 rfl
  | p :: ps, h =>
    have hparts := List.forall_mem_append.1 h
    patterns_repeat_cons (pattern_repeats hnames p hparts.1) (patterns_repeat hnames ps hparts.2)

theorem fields_repeat (hnames : Calls names nameOf) :
    ∀ fs : List (Option Source.Name × Source.Pattern),
      (∀ f ∈ Source.Pattern.fieldsWithin fs, HasOneName f) → RepeatFields names nameOf fs
  | [], _ => by
    intro outer own final slots total gs h fs' hfs'
    obtain ⟨⟨⟩⟩ := clean_pure.1 h
    cases hfs'
    exact clean_pure.2 rfl
  | (_, p) :: fs, h =>
    have hparts := List.forall_mem_cons.1 h
    have hrest := List.forall_mem_append.1 hparts.2
    fields_repeat_cons hnames hparts.1 (pattern_repeats hnames p hrest.1)
      (fields_repeat hnames fs hrest.2)

end

end

theorem ruleNameFindings_again {rules rules' : List Source.Rule} {earlier : List String}
    (hnames : rules'.map (·.name.text) = rules.map (·.name.text))
    (h : ruleNameFindings earlier rules = []) : ruleNameFindings earlier rules' = [] := by
  induction rules generalizing earlier rules' with
  | nil =>
    rw [List.map_nil, List.map_eq_nil_iff] at hnames
    rw [hnames]
    rfl
  | cons r rules ih =>
    cases rules' with
    | nil => cases hnames
    | cons r' rules' =>
      rw [List.map_cons, List.map_cons, List.cons.injEq] at hnames
      obtain ⟨hname, hrest⟩ := hnames
      simp only [ruleNameFindings, List.append_eq_nil_iff] at h ⊢
      rw [hname]
      refine ⟨?_, ih hrest h.2⟩
      have hhere := h.1
      split at hhere
      · cases hhere
      · rename_i hleaf
        split at hhere
        · cases hhere
        · rename_i hfresh
          rw [if_neg hleaf, if_neg hfresh]

theorem Compiles.names {file : Source.File} {g : Grammar} (h : Compiles file g) :
    g.rules.map (·.name) = ruleNames file := by
  have hrules := (lower_clean.1 h.lowered).2.1
  rw [ruleNames, ← List.forall₂_eq_eq_eq, List.forall₂_map_left_iff, List.forall₂_map_right_iff]
  exact hrules.flip.imp fun _ _ hr => hr.1

theorem nameIn_eq {rules : List Rule} {name : String} {index : Nat}
    (h : (rules.map (·.name))[index]? = some name) : Grammar.nameIn rules index = name := by
  rw [List.getElem?_map, Option.map_eq_some_iff] at h
  obtain ⟨r, hr, rfl⟩ := h
  rw [Grammar.nameIn, hr]

/-- The rules of a compiled grammar are called by the names of its source. -/
theorem Compiles.calls {file : Source.File} {g : Grammar} (h : Compiles file g) :
    Calls (ruleNames file) g.nameOf := by
  intro name index hindex
  exact nameIn_eq (by rw [h.names, getElem?_of_ruleIndex? hindex])

theorem rules_again {names : List String} {nameOf : Nat → String} (hnames : Calls names nameOf)
    {sources sources' : List Source.Rule} {rules : List Rule}
    (h : List.Forall₂ (ResolvesRule names) sources rules)
    (honce : ∀ r ∈ sources, ∀ f ∈ r.body.fields, HasOneName f)
    (hwrites : List.Forall₂ (WritesRule nameOf) rules sources') :
    List.Forall₂ (ResolvesRule names) sources' rules := by
  induction h generalizing sources' with
  | nil =>
    cases hwrites
    exact .nil
  | @cons source r _ _ hr _ ih =>
    have honce' := List.forall_mem_cons.1 honce
    cases hwrites with
    | cons hhead htail =>
      exact .cons ⟨hhead.1.symm, pattern_repeats hnames source.body honce'.1 hr.2 _ hhead.2⟩
        (ih honce'.2 htail)

/-- A grammar is what each source that writes it is resolved to. -/
theorem Compiles.again {file file' : Source.File} {g : Grammar} (h : Compiles file g)
    (honce : ∀ r ∈ file.rules, ∀ f ∈ r.body.fields, HasOneName f)
    (hwrites : WritesGrammar g file') : Compiles file' g := by
  obtain ⟨hfindings, hrules, -, hstart⟩ := lower_clean.1 h.lowered
  have hnames : ruleNames file' = ruleNames file := by
    rw [← h.names, ruleNames, ← List.forall₂_eq_eq_eq, List.forall₂_map_left_iff,
      List.forall₂_map_right_iff]
    exact hwrites.rules.flip.imp fun _ _ hr => hr.1
  obtain ⟨close, hseparators⟩ := hwrites.separators
  obtain ⟨span, hstarts⟩ := hwrites.starts
  obtain ⟨-, -, name, _, -, hindex, ⟨⟩⟩ := lowerStarts_clean.1 hstart
  rw [h.calls name g.start hindex] at hstarts
  refine ⟨lower_clean.2 ⟨ruleNameFindings_again hnames hfindings, ?_, rfl, ?_⟩, h.acyclic⟩
  · rw [hnames]
    exact rules_again h.calls hrules honce hwrites.rules
  · rw [hnames]
    exact lowerStarts_clean.2 ⟨⟨close, hseparators⟩, span, name, g.start, hstarts, hindex, rfl⟩

end Compile

end TextGrammar
