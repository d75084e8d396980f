import TextGrammar.Compile

/-! # Checks that find nothing

A source is compiled exactly if resolving its names and looking for left recursion finds nothing.
A check that finds nothing is taken apart into its steps, each of which finds nothing. -/

namespace TextGrammar.Compile
variable {α β : Type}

/-- A check has a result, and found nothing. -/
def Clean (m : Checked α) (x : α) : Prop := m = ⟨x, []⟩

theorem clean_iff {m : Checked α} {x : α} : Clean m x ↔ m.result = x ∧ m.findings = [] := by
  rcases m with ⟨y, findings⟩
  simp [Clean]

theorem clean_bind {m : Checked α} {f : α → Checked β} {y : β} :
    Clean (m >>= f) y ↔ ∃ x, Clean m x ∧ Clean (f x) y := by
  simp only [clean_iff, Checked.bind_result, Checked.bind_findings, List.append_eq_nil_iff]
  constructor
  · rintro ⟨hy, hm, hf⟩
    exact ⟨m.result, ⟨rfl, hm⟩, hy, hf⟩
  · rintro ⟨_, ⟨rfl, hm⟩, hy, hf⟩
    exact ⟨hy, hm, hf⟩

theorem clean_pure {x y : α} : Clean (pure x) y ↔ x = y := by
  simp [clean_iff]

theorem clean_report {span : Span} {problem : Problem} {u : Unit} :
    ¬Clean (Checked.report span problem) u := nofun

/-- Findings alone are clean if there are none. -/
theorem clean_findings {findings : List Finding} {u : Unit} :
    Clean (⟨(), findings⟩ : Checked Unit) u ↔ findings = [] := by
  simp [clean_iff]

/-- A numbering that starts from a slot has a result and stops at a slot, and found nothing. -/
def Numbers (m : Numbering α) (n : Nat) (x : α) (next : Nat) : Prop := Clean (m.run n) (x, next)

theorem numbers_bind {m : Numbering α} {f : α → Numbering β} {n next : Nat} {y : β} :
    Numbers (m >>= f) n y next ↔ ∃ x k, Numbers m n x k ∧ Numbers (f x) k y next := by
  simp only [Numbers, StateT.run_bind, clean_bind, Prod.exists]

theorem numbers_pure {x y : α} {n next : Nat} : Numbers (pure x) n y next ↔ x = y ∧ n = next := by
  change Clean (pure (x, n)) (y, next) ↔ _
  rw [clean_pure, Prod.mk.injEq]

theorem numbers_report {span : Span} {problem : Problem} {n next : Nat} {u : Unit} :
    ¬Numbers (report span problem) n u next := nofun

theorem numbers_declareLocal {locals after : Locals} {name : String} {mutable : Bool}
    {n slot next : Nat} :
    Numbers (declareLocal locals name mutable) n (slot, after) next ↔
      slot = n ∧ after = (name, ⟨n, mutable⟩) :: locals ∧ next = n + 1 := by
  change Clean (pure ((n, (name, ⟨n, mutable⟩) :: locals), n + 1)) ((slot, after), next) ↔ _
  simp [clean_pure, eq_comm, and_assoc]

/-- A parsed source has a grammar: its names are resolved to the table and the start rule of the
grammar, and there is no left recursion in the table. -/
structure Compiles (file : Source.File) (g : Grammar) : Prop where
  lowered : Clean (lower file) ⟨g.rules, file.rules.map (·.name.span), some g.start⟩
  acyclic : cycles g.rules (nullableRules g.rules) = []

theorem grammar?_eq_some {checked : Checked (Lowered × List Nat)} {g : Grammar} :
    grammar? checked = some g ↔
      checked.findings = [] ∧ checked.result.1.rules = g.rules ∧
        checked.result.1.start = some g.start := by
  have hlt := g.start_lt
  obtain ⟨rules, start, _⟩ := g
  unfold grammar?
  constructor
  · intro h
    split at h
    · rename_i hempty
      split at h
      · rename_i first hfirst
        unfold Grammar.ofRules? at h
        split at h
        · cases h
          exact ⟨List.isEmpty_iff.1 hempty, rfl, hfirst⟩
        · cases h
      · cases h
    · cases h
  · rintro ⟨hnone, hrules, hstart⟩
    simp only at hrules hstart hlt
    simp [hnone, hrules, hstart, Grammar.ofRules?, hlt]

theorem lower_spans (file : Source.File) :
    (lower file).result.spans = file.rules.map (·.name.span) := rfl

/-- Nothing is found in a parsed source exactly if its names are resolved without findings, and no
cycle is closed in the table. -/
theorem analyse_findings {file : Source.File} :
    (analyse file).findings = [] ↔ (lower file).findings = [] ∧
      cycles (lower file).result.rules (nullableRules (lower file).result.rules) = [] := by
  have hfindings : (analyse file).findings =
      (lower file).findings ++ (leftRecursionFindings (lower file).result.rules
        (lower file).result.spans (nullableRules (lower file).result.rules)) := by
    simp [analyse]
  rw [hfindings, List.append_eq_nil_iff, leftRecursionFindings, List.map_eq_nil_iff]

theorem compileFile_eq_ok {source : List Char} {file : Source.File} {g : Grammar} :
    (compileFile source file).1 = .ok g ↔ Compiles file g := by
  have hgrammar : (compileFile source file).1 = .ok g ↔ grammar? (analyse file) = some g := by
    unfold compileFile
    cases h : grammar? (analyse file) <;> simp [h]
  have hresult : (analyse file).result.1 = (lower file).result := rfl
  rw [hgrammar, grammar?_eq_some, analyse_findings, hresult]
  constructor
  · rintro ⟨⟨hlower, hcycles⟩, hrules, hstart⟩
    rw [hrules] at hcycles
    refine ⟨clean_iff.2 ⟨?_, hlower⟩, hcycles⟩
    rw [← hrules, ← hstart, ← lower_spans]
  · rintro ⟨hlowered, hcycles⟩
    obtain ⟨hresult, hnone⟩ := clean_iff.1 hlowered
    rw [hresult]
    exact ⟨⟨hnone, hcycles⟩, rfl, rfl⟩

/-- A parsed source without a grammar is refused with all that was found in it. -/
theorem compileFile_eq_error {source : List Char} {file : Source.File}
    (h : ∀ g, ¬Compiles file g) :
    (compileFile source file).1 = .error (.unsound
      (Diagnostic.ofReports source ((analyse file).findings.map Finding.report))) := by
  unfold compileFile
  cases hgrammar : grammar? (analyse file) with
  | none => simp [hgrammar]
  | some g =>
    have hok : (compileFile source file).1 = .ok g := by
      simp [compileFile, hgrammar]
    exact absurd (compileFile_eq_ok.1 hok) (h g)

/-- A source is compiled to a grammar exactly if it parses to one that has this grammar. -/
theorem compile_eq_ok {source : String} {g : Grammar} :
    compile source = .ok g ↔
      ∃ file, Source.parseFile source.toList = .ok file ∧ Compiles file g := by
  unfold compile compileLogged
  cases hfile : Source.parseFile source.toList with
  | error fault => simp [hfile]
  | ok file => simp [hfile, compileFile_eq_ok]

theorem exists_compile_eq_ok (source : String) (h : (compile source).isOk = true) :
    ∃ g, compile source = .ok g := by
  cases hg : compile source with
  | error e =>
    rw [hg] at h
    cases h
  | ok g => exact ⟨g, rfl⟩

/-- A source of which a check of the grammar holds is compiled. -/
theorem exists_compile_eq_ok_of_any {source : String} {p : Grammar → Bool}
    (h : (compile source).toOption.any p = true) : ∃ g, compile source = .ok g ∧ p g = true := by
  cases hg : compile source with
  | error e =>
    rw [hg] at h
    cases h
  | ok g =>
    rw [hg] at h
    exact ⟨g, rfl, h⟩

end TextGrammar.Compile
