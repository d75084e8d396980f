import TextGrammar.Proofs.Display.Variables

/-! # The variables of a displayed grammar

The display of a compiled grammar writes each variable where the declaration or the field that it
was resolved to is in force under its name. Only a field with a label and another override name is
written under one of two names that it can be read by, so a variable with the label of such a field
is left without it. -/

namespace TextGrammar
open Compile (Compiles compile_eq_ok lower_clean)
open Source (HasOneName parseFile)

/-- A name is the label of a field inside a pattern, and another one its override name. -/
def Source.Pattern.Overrides (p : Source.Pattern) (name key : String) : Prop :=
  key ≠ name ∧ ∃ f ∈ p.fields, ∃ label ∈ f.1, ∃ newName ∈ f.2.rename?,
    label.text = name ∧ newName.text = key

theorem Source.Pattern.replaces_overrides {p : Source.Pattern} {f : Source.Field}
    (hf : f ∈ p.fields) : Source.Replaces p.Overrides f :=
  fun label hlabel newName hnewName hne =>
    ⟨hne, f, hf, label, hlabel, newName, hnewName, rfl, rfl⟩

/-- In a pattern of fields with one name each, no label is overridden. -/
theorem Source.Pattern.not_overrides {p : Source.Pattern} (honce : ∀ f ∈ p.fields, HasOneName f)
    {name key : String} : ¬p.Overrides name key := by
  rintro ⟨hne, f, hf, label, hlabel, newName, hnewName, rfl, rfl⟩
  exact hne (honce f hf label hlabel newName hnewName)

/-- The variables in the rules of a compiled source fit what is written around them. -/
theorem Compile.Compiles.mentions {file : Source.File} {g : Grammar} (h : Compiles file g) :
    List.Forall₂ (fun source r => ∀ m ∈ r.body.mentions [], m.Fits source.body.Overrides)
      file.rules g.rules := by
  obtain ⟨-, hrules, -, -⟩ := lower_clean.1 h.lowered
  refine hrules.imp fun source r hr => ?_
  exact pattern_mentions (fun _ _ hoverrides => hoverrides.1) hr.2 .nil
    fun _ => Source.Pattern.replaces_overrides

/-- In the display of a compiled grammar, the innermost declaration or field with the name of a
variable is the slot that the variable was resolved to, exactly if the variable is not the label of
a field that is written under another override name. If no field of the source has a label and
another override name, that is so for all variables. -/
theorem displayed_variables {source : String} {g : Grammar} (hg : compile source = .ok g) :
    ∃ file, parseFile source.toList = .ok file ∧
      List.Forall₂ (fun r shown => ∀ m ∈ shown.body.mentions [],
        (m.IsBound ↔ ¬m.IsReplaced r.body.Overrides)) file.rules g.rules ∧
      ((∀ r ∈ file.rules, ∀ f ∈ r.body.fields, HasOneName f) →
        ∀ shown ∈ g.rules, ∀ m ∈ shown.body.mentions [], m.IsBound) := by
  obtain ⟨file, hfile, hcompiles⟩ := compile_eq_ok.1 hg
  refine ⟨file, hfile, hcompiles.mentions, fun honce shown hshown m hm => ?_⟩
  obtain ⟨r, hr, hfits⟩ := Compile.exists_of_forall₂_right hcompiles.mentions hshown
  refine (hfits m hm).2 ?_
  rintro ⟨_, _, _, _, -, hoverrides, -⟩
  exact Source.Pattern.not_overrides (honce r hr) hoverrides

/-- Lines, a rule that declares a variable named like a field, and an inner sequence that reads a
field of the outer one. -/
def countedSource : String :=
  "meta \x7b line := [t: str] => t; all := [head: line, num:\"n\", rest: repeat [line] => head + " ++
    "line] => \x7b let mut head = n; for k in 0..2 \x7b head += k; \x7d head \x7d; " ++
    "num := [i64]; --- all \x7d"

theorem displayed_variables_counted : ∃ g, compile countedSource = .ok g ∧
    (∀ shown ∈ g.rules, ∀ m ∈ shown.body.mentions [], m.IsBound) ∧
    ∃ shown ∈ g.rules, 6 ≤ (shown.body.mentions []).length := by
  have hmany : (compile countedSource).toOption.any (fun g => decide
      (∃ shown ∈ g.rules, 6 ≤ (shown.body.mentions []).length)) = true := by decide +kernel
  have hfields : (parseFile countedSource.toList).toOption.all (fun file => decide
      (∀ r ∈ file.rules, ∀ f ∈ r.body.fields, HasOneName f)) = true := by decide +kernel
  obtain ⟨g, hg, hmentions⟩ := Compile.exists_compile_eq_ok_of_any hmany
  obtain ⟨file, hfile, -, hbound⟩ := displayed_variables hg
  rw [hfile] at hfields
  exact ⟨g, hg, hbound (of_decide_eq_true hfields), of_decide_eq_true hmentions⟩

def relabeledSource : String :=
  "meta \x7b line := [t: str] => t; a := [x: line:\"l\"] => x; --- a \x7d"

def nestedLabelSource : String :=
  "meta \x7b line := [t: str] => t; a := [x: line, y: [x: line:\"l\"] => x] => x; --- a \x7d"

/-- A variable of a compiled grammar may be displayed where nothing has its name, so that the
display is refused, or where another field has it. -/
theorem displayed_variables_astray :
    (∃ g, compile relabeledSource = .ok g ∧ (compile g.display).isOk = false ∧
      ∃ shown ∈ g.rules, ∃ m ∈ shown.body.mentions [],
        m.referent = .field 0 0 ∧ m.written.meaning? m.name = none) ∧
    ∃ g, compile nestedLabelSource = .ok g ∧
      ∃ shown ∈ g.rules, ∃ m ∈ shown.body.mentions [],
        m.referent = .field 0 0 ∧ m.written.meaning? m.name = some (.field 1 0) := by
  have hunbound : (compile relabeledSource).toOption.any (fun g => decide
      ((compile g.display).isOk = false ∧ ∃ shown ∈ g.rules, ∃ m ∈ shown.body.mentions [],
        m.referent = .field 0 0 ∧ m.written.meaning? m.name = none)) = true := by decide +kernel
  have hother : (compile nestedLabelSource).toOption.any (fun g => decide
      (∃ shown ∈ g.rules, ∃ m ∈ shown.body.mentions [],
        m.referent = .field 0 0 ∧ m.written.meaning? m.name = some (.field 1 0))) = true := by
    decide +kernel
  obtain ⟨g, hg, hmentions⟩ := Compile.exists_compile_eq_ok_of_any hunbound
  obtain ⟨g', hg', hmentions'⟩ := Compile.exists_compile_eq_ok_of_any hother
  exact ⟨⟨g, hg, of_decide_eq_true hmentions⟩, g', hg', of_decide_eq_true hmentions'⟩

end TextGrammar
