import TextGrammar.Proofs.Compile.SourceFindings
import TextGrammar.Proofs.Compile.SourceGraph

/-! # Legal sources are compiled

A source that parses is compiled to a grammar exactly if it is legal. One that is not legal is
refused with what was found in it, and what stands in for a name without a meaning, or for a start
rule that is missing, is in no grammar. -/

namespace TextGrammar
open Compile (Compiles analyse)

namespace Compile
variable {file : Source.File}

/-- The rules of a source that has a grammar are in the table of the grammar. -/
theorem Compiles.tabled {g : Grammar} (h : Compiles file g) : Tabled file.rules g.rules := by
  obtain ⟨hnames, hrules, -, -⟩ := lower_clean.1 h.lowered
  obtain ⟨hunreserved, hfresh⟩ := ruleNameFindings_eq_nil.1 hnames
  exact ⟨freshNames_nil.1 hfresh, hunreserved, hrules⟩

theorem Compiles.legal {g : Grammar} (h : Compiles file g) : file.Legal := by
  have htabled := h.tabled
  obtain ⟨-, hrules, -, hstarts⟩ := lower_clean.1 h.lowered
  obtain ⟨hseparated, span, name, index, hstarted, hindex, -⟩ := lowerStarts_clean.1 hstarts
  exact {
    distinct := htabled.distinct
    unreserved := htabled.unreserved
    body := exists_rules.1 ⟨_, hrules⟩
    separated := hseparated
    started := ⟨span, name, hstarted, (exists_ruleIndex?.1 ⟨index, hindex⟩).2⟩
    acyclic := htabled.cycles_eq_nil_iff.1 h.acyclic }

/-- A source in which nothing is found has a grammar: its start rule is in the table. -/
theorem exists_compiles (hlower : ∃ l, Clean (lower file) l)
    (hcycles : cycles (lower file).result.rules (nullableRules (lower file).result.rules) = []) :
    ∃ g, Compiles file g := by
  obtain ⟨l, hl⟩ := hlower
  obtain ⟨hnames, hrules, hspans, hstarts⟩ := lower_clean.1 hl
  obtain ⟨-, -, name, index, -, hindex, hstart⟩ := lowerStarts_clean.1 hstarts
  have hlt : index < l.rules.length := by
    have hlt := ruleIndex?_lt hindex
    rwa [ruleNames, List.length_map, hrules.length_eq] at hlt
  rw [(clean_iff.1 hl).1] at hcycles
  obtain ⟨rules, spans, start⟩ := l
  cases hspans
  cases hstart
  exact ⟨⟨rules, index, hlt⟩, hl, hcycles⟩

theorem exists_compiles_of_findings (h : (analyse file).findings = []) :
    ∃ g, Compiles file g := by
  obtain ⟨hlower, hcycles⟩ := analyse_findings.1 h
  exact exists_compiles ⟨_, clean_iff.2 ⟨rfl, hlower⟩⟩ hcycles

theorem exists_compiles_of_legal (h : file.Legal) : ∃ g, Compiles file g := by
  obtain ⟨rules, hrules⟩ := exists_rules.2 h.body
  obtain ⟨span, name, hstarted, hname⟩ := h.started
  obtain ⟨index, hindex⟩ := exists_ruleIndex?.2 ⟨h.unreserved name hname, hname⟩
  have hlowered : Clean (lower file) ⟨rules, file.rules.map (·.name.span), some index⟩ := by
    refine lower_clean.2 ⟨?_, hrules, rfl, ?_⟩
    · exact ruleNameFindings_eq_nil.2 ⟨h.unreserved, freshNames_nil.2 h.distinct⟩
    · exact lowerStarts_clean.2 ⟨h.separated, span, name, index, hstarted, hindex, rfl⟩
  refine exists_compiles ⟨_, hlowered⟩ ?_
  have htabled : Tabled file.rules rules := ⟨h.distinct, h.unreserved, hrules⟩
  rw [(clean_iff.1 hlowered).1]
  exact htabled.cycles_eq_nil_iff.2 h.acyclic

theorem exists_compiles_iff : (∃ g, Compiles file g) ↔ file.Legal := by
  constructor
  · rintro ⟨g, hg⟩
    exact hg.legal
  · exact exists_compiles_of_legal

/-- There is a diagnostic for each report. -/
theorem ofReports_ne_nil (source : List Char) {reports : List Report} (h : reports ≠ []) :
    Diagnostic.ofReports source reports ≠ [] := by
  rw [ne_eq, Diagnostic.ofReports, List.map_eq_nil_iff, ← List.length_eq_zero_iff,
    List.length_mergeSort, List.length_eq_zero_iff]
  exact h

end Compile

/-- A source that parses is compiled exactly if it is legal: its rules are named apart and not as
leaf types, its patterns name leaf types and rules and give new names to rules alone, its sequences
bind every name once, its actions read, assign and leave what is there to be read, assigned and
left, its records give every field once, a single separator is followed by the name of a rule, and
no rule comes back to itself before input is consumed. It is refused with a diagnostic otherwise. -/
theorem compile_accepts_legal {source : String} {file : Source.File}
    (hfile : Source.parseFile source.toList = .ok file) :
    ((∃ g, compile source = .ok g) ↔ file.Legal) ∧
      (¬file.Legal → ∃ d ds, compile source = .error (.unsound (d :: ds))) := by
  constructor
  · rw [← Compile.exists_compiles_iff]
    refine exists_congr fun g => ?_
    rw [Compile.compile_eq_ok, hfile]
    constructor
    · rintro ⟨_, ⟨⟩, hg⟩
      exact hg
    · exact fun hg => ⟨file, rfl, hg⟩
  · intro hillegal
    have hnone : ¬∃ g, Compiles file g := fun hg => hillegal (Compile.exists_compiles_iff.1 hg)
    have hfindings : (analyse file).findings ≠ [] :=
      fun h => hnone (Compile.exists_compiles_of_findings h)
    have hreports : (analyse file).findings.map Finding.report ≠ [] := by
      rwa [ne_eq, List.map_eq_nil_iff]
    obtain ⟨d, ds, hds⟩ :=
      List.exists_cons_of_ne_nil (Compile.ofReports_ne_nil source.toList hreports)
    refine ⟨d, ds, ?_⟩
    rw [← hds, ← Compile.compileFile_eq_error fun g hg => hnone ⟨g, hg⟩]
    simp only [compile, compileLogged, hfile]

/-- A rule that adds numbers to one that stands in the sequence around them, up to a limit. -/
def addingSource : String :=
  "meta \x7b add := [first: num, rest: repeat [x: num] => \x7b let mut y = first; " ++
    "for k in 0..x \x7b if y == 9 \x7b break; \x7d y += k; \x7d y \x7d]; " ++
    "num := [i64]; --- (add) \x7d"

/-- Two rules that enter each other behind patterns that may match without consuming. -/
def circularSource : String :=
  "meta \x7b a := [repeat [\"x\"], b]; b := [!\"y\", a]; --- a \x7d"

theorem compile_accepts_legal_adding :
    (∃ file, Source.parseFile addingSource.toList = .ok file ∧ file.Legal) ∧
    ∃ file, Source.parseFile circularSource.toList = .ok file ∧ ¬file.Legal := by
  constructor
  · obtain ⟨g, hg⟩ := Compile.exists_compile_eq_ok addingSource (by decide +kernel)
    obtain ⟨file, hfile, -⟩ := Compile.compile_eq_ok.1 hg
    exact ⟨file, hfile, (compile_accepts_legal hfile).1.1 ⟨g, hg⟩⟩
  · have hrefused : (compile circularSource).isOk = false := by decide +kernel
    have hparsed : (Source.parseFile circularSource.toList).isOk = true := by decide +kernel
    cases hfile : Source.parseFile circularSource.toList with
    | error e =>
      rw [hfile] at hparsed
      cases hparsed
    | ok file =>
      refine ⟨file, rfl, fun hlegal => ?_⟩
      obtain ⟨g, hg⟩ := (compile_accepts_legal hfile).1.2 hlegal
      rw [hg] at hrefused
      cases hrefused

end TextGrammar
