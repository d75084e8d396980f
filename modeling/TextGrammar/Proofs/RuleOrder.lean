import TextGrammar.Proofs.Compile.Reordering

/-! # The order of rules does not matter

The rules of a source may be written in any order. Where a rule stands decides which place it gets
in the table, and nothing else. -/

namespace TextGrammar
open Compile (compileFile compileFile_eq_ok exists_compiles_iff)

/-- Of two sources with the same rules in different orders both have a grammar or none has. The
two grammars give the same result for every input, whatever the nesting limit is and whichever
rule is named to start from, errors with the rules in them included, and log the same. -/
theorem rule_order_irrelevant (file : Source.File) {rules : List Source.Rule}
    (hperm : rules.Perm file.rules) (text text' : List Char) :
    ((∃ g, (compileFile text file).1 = .ok g) ↔
      ∃ g', (compileFile text' { file with rules }).1 = .ok g') ∧
    ∀ g g', (compileFile text file).1 = .ok g →
      (compileFile text' { file with rules }).1 = .ok g' →
      ∀ options input, g'.run options input = g.run options input ∧
        (g'.runLogged options input).2 = (g.runLogged options input).2 := by
  simp only [compileFile_eq_ok, exists_compiles_iff]
  refine ⟨⟨fun h => h.reordered hperm, fun h => ?_⟩, ?_⟩
  · exact h.reordered hperm.symm
  · intro g g' hg hg' options input
    have hsame := (hg.relocates hg' hperm).runLogged options input
    exact ⟨congrArg Prod.fst hsame, congrArg Prod.snd hsame⟩

/-- Three rules, of which the first refers to the others, and the last one to the first. -/
def listSource : String :=
  "meta \x7b list := [\"(\", items: repeat item, \")\"]; digit := \"0\" | \"1\"; " ++
    "item := list | digit; --- list \x7d"

theorem rule_order_irrelevant_list : ∃ file g g',
    Source.parseFile listSource.toList = .ok file ∧
      (compileFile [] file).1 = .ok g ∧
      (compileFile [] { file with rules := file.rules.reverse }).1 = .ok g' ∧
      ∀ options input, g'.run options input = g.run options input := by
  obtain ⟨g, hg⟩ := Compile.exists_compile_eq_ok listSource (by decide +kernel)
  obtain ⟨file, hfile, hcompiles⟩ := Compile.compile_eq_ok.1 hg
  have hok : (compileFile [] file).1 = .ok g := compileFile_eq_ok.2 hcompiles
  obtain ⟨hboth, hsame⟩ := rule_order_irrelevant file file.rules.reverse_perm [] []
  obtain ⟨g', hg'⟩ := hboth.1 ⟨g, hok⟩
  exact ⟨file, g, g', hfile, hok, hg', fun options input => (hsame g g' hok hg' options input).1⟩

end TextGrammar
