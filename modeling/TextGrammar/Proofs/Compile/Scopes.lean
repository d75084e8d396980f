import TextGrammar.Proofs.Compile.Resolution

/-! # The scope of a sequence

A field of a sequence is read by its override name and its label, or else by the name of the rule
that it refers to. The scope of a sequence finds a field under these names, in the slot that
counts the bound fields before it. -/

namespace TextGrammar.Compile

/-- The names that a field is read by: its override name and its label, or else the name of the
rule that it refers to. -/
def fieldNames (f : Source.Field) : List String :=
  match f.2.rename?, f.1, f.2.callee? with
  | some newName, some label, _ => [newName.text, label.text]
  | some newName, none, _ => [newName.text]
  | none, some label, _ => [label.text]
  | none, none, some callee => if (Leaf.ofName? callee).isSome then [] else [callee]
  | none, none, none => []

/-- Whether a field can be read at all. -/
def isBound (f : Source.Field) : Bool := !(fieldNames f).isEmpty

def bound (fields : List Source.Field) : List Source.Field := fields.filter isBound

def slotBehind (front : List Source.Field) (f : Source.Field) : Option Nat :=
  if isBound f then some (bound front).length else none

def Lists (scope : Scope) (front : List Source.Field) : Prop :=
  ∀ name, scope.lookup name = (bound front).findIdx? fun f => name ∈ fieldNames f

theorem bound_append (front back : List Source.Field) :
    bound (front ++ back) = bound front ++ bound back :=
  List.filter_append ..

theorem bound_singleton (f : Source.Field) : bound [f] = if isBound f then [f] else [] := by
  cases h : isBound f <;> simp [bound, h]

theorem lists_nil : Lists [] [] := fun _ => rfl

theorem bindingKey?_eq_none {f : Source.Field} : bindingKey? f = none ↔ isBound f = false := by
  unfold bindingKey? isBound fieldNames
  cases f.2.rename? <;> cases f.1 <;> cases hcallee : f.2.callee? with
  | none => simp
  | some callee => cases hleaf : (Leaf.ofName? callee).isSome <;> simp [hleaf]

theorem isBound_of_key {f : Source.Field} {key : Source.Name} (h : bindingKey? f = some key) :
    isBound f = true := by
  rw [← Bool.not_eq_false, ← bindingKey?_eq_none, h]
  nofun

theorem mem_fieldNames {f : Source.Field} {key : Source.Name} (hkey : bindingKey? f = some key)
    (name : String) :
    name ∈ fieldNames f ↔ name = key.text ∨ ∃ label, f.1 = some label ∧ name = label.text := by
  unfold bindingKey? at hkey
  unfold fieldNames
  cases hrename : f.2.rename? with
  | some newName =>
    rw [hrename] at hkey
    cases hkey
    cases hlabel : f.1 <;> simp
  | none =>
    cases hlabel : f.1 with
    | some label =>
      rw [hrename, hlabel] at hkey
      cases hkey
      simp
    | none =>
      cases hcallee : f.2.callee? with
      | none =>
        rw [hrename, hlabel, hcallee] at hkey
        cases hkey
      | some callee =>
        cases hleaf : (Leaf.ofName? callee).isSome with
        | true => simp [hrename, hlabel, hcallee, hleaf] at hkey
        | false =>
          simp only [hrename, hlabel, hcallee, hleaf, Bool.false_eq_true, if_false,
            Option.some.injEq] at hkey
          have hnone : Leaf.ofName? callee = none := by simpa using hleaf
          simp [← hkey, hnone]

theorem lookup_cons (scope : Scope) (key name : String) (slot : Nat) :
    List.lookup name ((key, slot) :: scope) =
      if name = key then some slot else scope.lookup name := by
  by_cases h : name = key
  · simp [h]
  · have hbeq : (name == key) = false := by simpa using h
    simp [List.lookup_cons, hbeq, h]

theorem bindName_clean {scope after : Scope} {name : Source.Name} {slot : Nat} :
    Clean (bindName scope name slot) after ↔
      scope.lookup name.text = none ∧ after = (name.text, slot) :: scope := by
  unfold bindName
  cases h : scope.lookup name.text with
  | some other => simp [clean_bind, clean_report]
  | none => simp [clean_pure, eq_comm]

/-- Binding a field finds it under its names, none of which was there before. -/
theorem bindField_clean {scope after : Scope} {f : Source.Field} {key : Source.Name} {slot : Nat}
    (hkey : bindingKey? f = some key) (h : Clean (bindField scope key f.1 slot) after)
    (name : String) :
    after.lookup name = (if name ∈ fieldNames f then some slot else scope.lookup name) ∧
      (name ∈ fieldNames f → scope.lookup name = none) := by
  unfold bindField at h
  obtain ⟨first, hfirst, h⟩ := clean_bind.1 h
  obtain ⟨hnone, rfl⟩ := bindName_clean.1 hfirst
  have hnames := mem_fieldNames hkey name
  cases hlabel : f.1 with
  | none =>
    rw [hlabel] at h
    obtain rfl := clean_pure.1 h
    have hmem : name ∈ fieldNames f ↔ name = key.text := by
      rw [hnames, hlabel]
      simp
    simp only [hmem, lookup_cons, true_and]
    rintro rfl
    exact hnone
  | some label =>
    rw [hlabel] at h
    have hmem : name ∈ fieldNames f ↔ name = key.text ∨ name = label.text := by
      rw [hnames, hlabel]
      simp
    by_cases hsame : label.text = key.text
    · simp only [hsame, if_true] at h
      obtain rfl := clean_pure.1 h
      simp only [hmem, hsame, or_self, lookup_cons, true_and]
      rintro rfl
      exact hnone
    · simp only [hsame, if_false] at h
      obtain ⟨hnone', rfl⟩ := bindName_clean.1 h
      rw [lookup_cons, if_neg hsame] at hnone'
      constructor
      · simp only [lookup_cons, hmem]
        by_cases hname : name = key.text <;> by_cases hname' : name = label.text <;>
          simp [hname, hname']
      · intro hname
        rcases hmem.1 hname with rfl | rfl
        · exact hnone
        · exact hnone'

/-- A bound field comes after those that a scope lists. -/
theorem Lists.bind {scope after : Scope} {front : List Source.Field} {f : Source.Field}
    {key : Source.Name} (hscope : Lists scope front) (hkey : bindingKey? f = some key)
    (h : Clean (bindField scope key f.1 (bound front).length) after) :
    Lists after (front ++ [f]) := by
  have hbound := isBound_of_key hkey
  intro name
  obtain ⟨hafter, hfresh⟩ := bindField_clean hkey h name
  rw [hafter, bound_append, bound_singleton, if_pos hbound, List.findIdx?_append, ← hscope name]
  by_cases hname : name ∈ fieldNames f
  · simp [hname, hfresh hname]
  · cases scope.lookup name <;> simp [hname]

/-- A field that is not bound changes nothing. -/
theorem Lists.skip {scope : Scope} {front : List Source.Field} {f : Source.Field}
    (hscope : Lists scope front) (hf : isBound f = false) : Lists scope (front ++ [f]) := by
  intro name
  rw [bound_append, bound_singleton, hf]
  simpa using hscope name

section
variable (names : List String) (outer : List Scope)

/-- A field behind some others is resolved: it has the slot of its place, and its pattern sees
the fields before it. -/
def ResolvesField (front : List Source.Field) (f : Source.Field) (lowered : Field) : Prop :=
  lowered.1.map (·.slot) = slotBehind front f ∧
    ∃ scope, Lists scope front ∧ Clean (lowerPattern names (scope :: outer) f.2) lowered.2

/-- Some fields behind others are resolved one by one. -/
inductive ResolvesFields : List Source.Field → List Source.Field → List Field → Prop
  | nil {front : List Source.Field} : ResolvesFields front [] []
  | cons {front rest : List Source.Field} {f : Source.Field} {lowered : Field}
    {more : List Field} (hf : ResolvesField names outer front f lowered)
    (hrest : ResolvesFields (front ++ [f]) rest more) :
    ResolvesFields front (f :: rest) (lowered :: more)

end

variable {names : List String} {outer : List Scope}

/-- The first of some fields is resolved, and bound to the next slot if it has a key. -/
theorem lowerFields_cons_clean {label : Option Source.Name} {p : Source.Pattern}
    {rest : List Source.Field} {own final : Scope} {slots total : Nat} {lowered : List Field} :
    Clean (lowerFields names outer own slots ((label, p) :: rest)) (final, total, lowered) ↔
      ∃ q, Clean (lowerPattern names (own :: outer) p) q ∧
        ((∃ key own' more, bindingKey? (label, p) = some key ∧
          Clean (bindField own key label slots) own' ∧
          Clean (lowerFields names outer own' (slots + 1) rest) (final, total, more) ∧
          lowered = (some ⟨key.text, slots⟩, q) :: more) ∨
        (∃ more, bindingKey? (label, p) = none ∧
          Clean (lowerFields names outer own slots rest) (final, total, more) ∧
          lowered = (none, q) :: more)) := by
  simp only [lowerFields, clean_bind]
  refine exists_congr fun q => and_congr_right fun _ => ?_
  cases bindingKey? (label, p) with
  | some key =>
    simp only [clean_bind, clean_pure, Prod.mk.injEq]
    constructor
    · rintro ⟨own', hbind, ⟨_, _, more⟩, hmore, rfl, rfl, rfl⟩
      exact .inl ⟨key, own', more, rfl, hbind, hmore, rfl⟩
    · rintro (⟨_, own', more, ⟨⟩, hbind, hmore, rfl⟩ | ⟨_, ⟨⟩, -⟩)
      exact ⟨own', hbind, (final, total, more), hmore, rfl, rfl, rfl⟩
  | none =>
    simp only [clean_bind, clean_pure, Prod.mk.injEq]
    constructor
    · rintro ⟨⟨_, _, more⟩, hmore, rfl, rfl, rfl⟩
      exact .inr ⟨more, trivial, hmore, rfl⟩
    · rintro (⟨_, _, _, ⟨⟩, -⟩ | ⟨more, -, hmore, rfl⟩)
      exact ⟨(final, total, more), hmore, rfl, rfl, rfl⟩

theorem length_bound_key {f : Source.Field} {key : Source.Name} (hkey : bindingKey? f = some key)
    (front : List Source.Field) : (bound (front ++ [f])).length = (bound front).length + 1 := by
  simp [bound_append, bound_singleton, isBound_of_key hkey]

theorem length_bound_free {f : Source.Field} (hkey : bindingKey? f = none)
    (front : List Source.Field) : (bound (front ++ [f])).length = (bound front).length := by
  simp [bound_append, bound_singleton, bindingKey?_eq_none.1 hkey]

theorem lowerFields_clean {fields : List Source.Field} {front : List Source.Field}
    {own final : Scope} {total : Nat} {lowered : List Field}
    (hown : Lists own front)
    (h : Clean (lowerFields names outer own (bound front).length fields) (final, total, lowered)) :
    Lists final (front ++ fields) ∧ total = (bound (front ++ fields)).length ∧
      ResolvesFields names outer front fields lowered := by
  induction fields generalizing front own lowered with
  | nil =>
    obtain ⟨⟨⟩⟩ := clean_pure.1 h
    rw [List.append_nil]
    exact ⟨hown, rfl, .nil⟩
  | cons f rest ih =>
    obtain ⟨label, p⟩ := f
    obtain ⟨q, hq, ⟨key, own', more, hkey, hbind, hmore, rfl⟩ | ⟨more, hkey, hmore, rfl⟩⟩ :=
      lowerFields_cons_clean.1 h
    · have hbound := isBound_of_key hkey
      rw [← length_bound_key hkey] at hmore
      obtain ⟨hfinal, htotal, hrest⟩ := ih (hown.bind hkey hbind) hmore
      rw [List.append_assoc] at hfinal htotal
      exact ⟨hfinal, htotal, .cons ⟨by simp [slotBehind, hbound], own, hown, hq⟩ hrest⟩
    · have hbound := bindingKey?_eq_none.1 hkey
      rw [← length_bound_free hkey] at hmore
      obtain ⟨hfinal, htotal, hrest⟩ := ih (hown.skip hbound) hmore
      rw [List.append_assoc] at hfinal htotal
      exact ⟨hfinal, htotal, .cons ⟨by simp [slotBehind, hbound], own, hown, hq⟩ hrest⟩

/-- The fields behind some of the fields of a sequence are resolved behind these. -/
theorem ResolvesFields.split {start front back : List Source.Field} {before after : List Field}
    (h : ResolvesFields names outer start (front ++ back) (before ++ after))
    (hlength : front.length = before.length) :
    ResolvesFields names outer (start ++ front) back after := by
  induction front generalizing start before with
  | nil =>
    obtain rfl := List.length_eq_zero_iff.1 hlength.symm
    rwa [List.append_nil]
  | cons f front ih =>
    cases before with
    | nil => cases hlength
    | cons lowered before =>
      cases h with
      | cons _ hrest =>
        have hsplit := ih hrest (Nat.succ.inj hlength)
        rwa [List.append_assoc] at hsplit

theorem ResolvesFields.head {front rest : List Source.Field} {f : Source.Field} {lowered : Field}
    {more : List Field} (h : ResolvesFields names outer front (f :: rest) (lowered :: more)) :
    ResolvesField names outer front f lowered := by
  cases h with
  | cons hf _ => exact hf

/-- A source sequence and a compiled one, with their fields, their actions if they have one, and
the number of slots. -/
inductive Pairs : Source.Pattern → Pattern → List Source.Field → List Field → Nat →
    Option (Source.Expr × Nat × Expr) → Prop
  | sequence {span : Span} {fields : List Source.Field} {lowered : List Field} {slots : Nat} :
    Pairs (.sequence span fields none) (.sequence slots lowered) fields lowered slots none
  | action {span : Span} {fields : List Source.Field} {lowered : List Field} {slots : Nat}
    {e : Source.Expr} {locals : Nat} {body : Expr} :
    Pairs (.sequence span fields (some e)) (.action slots lowered locals body) fields lowered slots
      (some (e, locals, body))

/-- A part of a source pattern and the part of a compiled pattern at the same place, with the
fields before it in each of the sequences around it, the innermost first. -/
inductive Within (root : Source.Pattern) (top : Pattern) :
    List (List Source.Field) → Source.Pattern → Pattern → Prop
  | root : Within root top [] root top
  | field {fronts : List (List Source.Field)} {p : Source.Pattern} {q : Pattern}
    {front back : List Source.Field} {f : Source.Field} {before after : List Field}
    {lowered : Field} {slots : Nat} {action : Option (Source.Expr × Nat × Expr)}
    (h : Within root top fronts p q)
    (hpair : Pairs p q (front ++ f :: back) (before ++ lowered :: after) slots action)
    (hlength : front.length = before.length) :
    Within root top (front :: fronts) f.2 lowered.2
  | repetition {fronts : List (List Source.Field)} {span : Span} {p : Source.Pattern}
    {q : Pattern} (h : Within root top fronts (.repetition span p) (.repetition q)) :
    Within root top fronts p q
  | negation {fronts : List (List Source.Field)} {span : Span} {p : Source.Pattern}
    {q : Pattern} (h : Within root top fronts (.negation span p) (.negation q)) :
    Within root top fronts p q
  | alternative {fronts : List (List Source.Field)} {span : Span}
    {front back : List Source.Pattern} {p : Source.Pattern} {before after : List Pattern}
    {q : Pattern}
    (h : Within root top fronts (.choice span (front ++ p :: back))
      (.choice (before ++ q :: after)))
    (hlength : front.length = before.length) : Within root top fronts p q

/-- A part of a source pattern, with the fields before it in each of the sequences around it. -/
inductive Inside (root : Source.Pattern) : List (List Source.Field) → Source.Pattern → Prop
  | root : Inside root [] root
  | field {fronts : List (List Source.Field)} {span : Span} {front back : List Source.Field}
    {f : Source.Field} {action : Option Source.Expr}
    (h : Inside root fronts (.sequence span (front ++ f :: back) action)) :
    Inside root (front :: fronts) f.2
  | repetition {fronts : List (List Source.Field)} {span : Span} {p : Source.Pattern}
    (h : Inside root fronts (.repetition span p)) : Inside root fronts p
  | negation {fronts : List (List Source.Field)} {span : Span} {p : Source.Pattern}
    (h : Inside root fronts (.negation span p)) : Inside root fronts p
  | alternative {fronts : List (List Source.Field)} {span : Span}
    {front back : List Source.Pattern} {p : Source.Pattern}
    (h : Inside root fronts (.choice span (front ++ p :: back))) : Inside root fronts p

/-- A resolved sequence: its fields are resolved, and so is its action, which sees them all. -/
theorem Pairs.resolved {p : Source.Pattern} {q : Pattern} {fields : List Source.Field}
    {lowered : List Field} {slots : Nat} {action : Option (Source.Expr × Nat × Expr)}
    (h : Pairs p q fields lowered slots action) (hclean : Clean (lowerPattern names outer p) q) :
    slots = (bound fields).length ∧ ResolvesFields names outer [] fields lowered ∧
      ∀ e locals body, action = some (e, locals, body) →
        ∃ own, Lists own fields ∧ Clean (lowerAction (own :: outer) e) (body, locals) := by
  cases h with
  | sequence =>
    cases lowerPattern_clean.1 hclean with
    | sequence hfields =>
      obtain ⟨-, hslots, hresolves⟩ := lowerFields_clean lists_nil hfields
      exact ⟨hslots, hresolves, nofun⟩
  | action =>
    cases lowerPattern_clean.1 hclean with
    | action hfields hbody =>
      obtain ⟨hown, hslots, hresolves⟩ := lowerFields_clean lists_nil hfields
      refine ⟨hslots, hresolves, ?_⟩
      rintro _ _ _ ⟨⟩
      exact ⟨_, hown, hbody⟩

/-- What stands in a resolved rule is resolved, and sees the fields before it. -/
theorem Within.resolved {root : Source.Pattern} {top : Pattern}
    (hroot : Clean (lowerPattern names [] root) top) {fronts : List (List Source.Field)}
    {p : Source.Pattern} {q : Pattern} (h : Within root top fronts p q) :
    ∃ scopes, List.Forall₂ Lists scopes fronts ∧ Clean (lowerPattern names scopes p) q := by
  induction h with
  | root => exact ⟨[], .nil, hroot⟩
  | field _ hpair hlength ih =>
    obtain ⟨scopes, hscopes, hclean⟩ := ih
    obtain ⟨-, hfields, -⟩ := hpair.resolved hclean
    cases hfields.split hlength with
    | cons hf _ =>
      obtain ⟨-, scope, hscope, hp⟩ := hf
      exact ⟨scope :: scopes, .cons hscope hscopes, hp⟩
  | repetition _ ih =>
    obtain ⟨scopes, hscopes, hclean⟩ := ih
    cases lowerPattern_clean.1 hclean with
    | repetition hp => exact ⟨scopes, hscopes, hp⟩
  | negation _ ih =>
    obtain ⟨scopes, hscopes, hclean⟩ := ih
    cases lowerPattern_clean.1 hclean with
    | negation hp => exact ⟨scopes, hscopes, hp⟩
  | @alternative _ _ front _ _ before _ _ _ hlength ih =>
    obtain ⟨scopes, hscopes, hclean⟩ := ih
    cases lowerPattern_clean.1 hclean with
    | choice hps =>
      have hdrop := List.forall₂_drop front.length (lowerPatterns_clean.1 hps)
      rw [List.drop_left, hlength, List.drop_left] at hdrop
      exact ⟨scopes, hscopes, (List.forall₂_cons.1 hdrop).1⟩

theorem ResolvesFields.at_field {start front back : List Source.Field} {f : Source.Field}
    {lowered : List Field}
    (h : ResolvesFields names outer start (front ++ f :: back) lowered) :
    ∃ before entry after, lowered = before ++ entry :: after ∧ front.length = before.length := by
  induction front generalizing start lowered with
  | nil =>
    cases h with
    | cons => exact ⟨[], _, _, rfl, rfl⟩
  | cons g front ih =>
    cases h with
    | @cons _ _ _ entry _ _ hrest =>
      obtain ⟨before, other, after, rfl, hlength⟩ := ih hrest
      exact ⟨entry :: before, other, after, rfl, congrArg Nat.succ hlength⟩

/-- A resolved source sequence has a compiled one beside it. -/
theorem pairs_of_clean {span : Span} {fields : List Source.Field} {action : Option Source.Expr}
    {q : Pattern} (h : Clean (lowerPattern names outer (.sequence span fields action)) q) :
    ∃ lowered slots a, Pairs (.sequence span fields action) q fields lowered slots a := by
  cases lowerPattern_clean.1 h with
  | sequence => exact ⟨_, _, _, .sequence⟩
  | action => exact ⟨_, _, _, .action⟩

/-- Every part of a resolved rule has a compiled part at the same place. -/
theorem Inside.within {root : Source.Pattern} {top : Pattern}
    (hroot : Clean (lowerPattern names [] root) top) {fronts : List (List Source.Field)}
    {p : Source.Pattern} (h : Inside root fronts p) : ∃ q, Within root top fronts p q := by
  induction h with
  | root => exact ⟨top, .root⟩
  | field _ ih =>
    obtain ⟨q, hq⟩ := ih
    obtain ⟨scopes, -, hclean⟩ := hq.resolved hroot
    obtain ⟨lowered, slots, a, hpair⟩ := pairs_of_clean hclean
    obtain ⟨before, entry, after, rfl, hlength⟩ := (hpair.resolved hclean).2.1.at_field
    exact ⟨entry.2, .field hq hpair hlength⟩
  | repetition _ ih =>
    obtain ⟨q, hq⟩ := ih
    obtain ⟨scopes, -, hclean⟩ := hq.resolved hroot
    cases lowerPattern_clean.1 hclean with
    | repetition => exact ⟨_, .repetition hq⟩
  | negation _ ih =>
    obtain ⟨q, hq⟩ := ih
    obtain ⟨scopes, -, hclean⟩ := hq.resolved hroot
    cases lowerPattern_clean.1 hclean with
    | negation => exact ⟨_, .negation hq⟩
  | @alternative _ _ front _ _ _ ih =>
    obtain ⟨q, hq⟩ := ih
    obtain ⟨scopes, -, hclean⟩ := hq.resolved hroot
    cases lowerPattern_clean.1 hclean with
    | @choice _ _ qs hps =>
      have hall := lowerPatterns_clean.1 hps
      have hdrop := List.forall₂_drop front.length hall
      rw [List.drop_left] at hdrop
      obtain ⟨q, after, -, -, hqs⟩ := List.forall₂_cons_left_iff.1 hdrop
      rw [← List.take_append_drop front.length qs, hqs] at hq
      exact ⟨q, .alternative hq (by simp [← hall.length_eq])⟩

end TextGrammar.Compile
