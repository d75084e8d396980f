import TextGrammar.Proofs.Display.Legibility
import TextGrammar.Proofs.Number.Positional

/-! # The display of a grammar is compiled to the grammar

The display of a compiled grammar is a source of its own. If its texts can be written without
numbered characters, its floats without an exponent, and its fields under one name each, the
display is compiled to the very grammar, unless it is nested deeper than its first source and too
deep for the parser. -/

namespace TextGrammar
open Compile (Compiles compile_eq_ok)
open Source (HasOneName parseFile)

theorem Grammar.toList_display (g : Grammar) : g.display.toList = g.text :=
  String.toList_ofList

theorem compile_of_malformed {source : String} {fault : Source.Fault}
    (h : parseFile source.toList = .error fault) :
    ∃ location, compile source = .error (.malformed location fault.cause) := by
  unfold compile compileLogged
  simp only [h]
  exact ⟨_, rfl⟩

/-- A legible grammar is what its display is compiled to, unless that is nested too deep. -/
theorem Compile.Compiles.display {file : Source.File} {g : Grammar} (h : Compiles file g)
    (honce : ∀ r ∈ file.rules, ∀ f ∈ r.body.fields, HasOneName f) (hg : g.IsLegible) :
    (∃ location, compile g.display = .error (.malformed location .nestingTooDeep)) ∨
      compile g.display = .ok g := by
  rcases Source.parseFile_text hg with ⟨span, hfault⟩ | ⟨file', hfile', hwrites⟩
  · rw [← g.toList_display] at hfault
    exact .inl (compile_of_malformed hfault)
  · rw [← g.toList_display] at hfile'
    exact .inr (compile_eq_ok.2 ⟨file', hfile', h.again honce hwrites⟩)

/-- The display of a compiled grammar is compiled to this grammar again, or it is nested too deep.
Asked for is that no text is quoted with a numbered character, that every float constant is zero or
of a magnitude that is written without an exponent and reads back to itself, that every field is
bound to an identifier, and that no source field has a label and another override name. -/
theorem compile_display {source : String} {file : Source.File} {g : Grammar}
    (hfile : parseFile source.toList = .ok file) (hg : compile source = .ok g)
    (hquoted : ∀ text ∈ g.quoted, Text.IsLegible text)
    (hfloats : ∀ x ∈ g.floats, (Number.parts x).IsModerate)
    (hreads : ∀ x ∈ g.floats, Number.readFloat? (Number.valueLayout.text x).toList = some x)
    (hbindings : ∀ name ∈ g.bindings, Token.isName name.toList = true)
    (honce : ∀ r ∈ file.rules, ∀ f ∈ r.body.fields, HasOneName f) :
    (∃ location, compile g.display = .error (.malformed location .nestingTooDeep)) ∨
      compile g.display = .ok g := by
  obtain ⟨file', hparsed, hcompiles⟩ := compile_eq_ok.1 hg
  rw [hfile] at hparsed
  cases hparsed
  have hread : g.IsReadable :=
    ⟨hquoted, fun x hx => ⟨hreads x hx, Number.isDecimal_of_moderate (hfloats x hx)⟩, hbindings⟩
  have hwell := Source.parseFile_wellFormed hfile
  exact hcompiles.display honce (hcompiles.isLegible hwell hread)

/-- A sum of numbers that are scaled by a float, with an override name, escapes and a loop. -/
def scaledSource : String :=
  "meta \x7b all := [num:\"head\", rest: repeat [\",\", num]] => \x7b let mut sum = head; " ++
    "for k in 0..2 \x7b sum = sum * 1.5; \x7d sum \x7d; " ++
    "num := [\"\\\"\", f64] | [\"\\t\", x <- f64]; --- all \x7d"

theorem scaledSource_constants : (compile scaledSource).toOption.any (fun g => decide
    ((∀ text ∈ g.quoted, Text.IsLegible text) ∧ g.floats = [1.5] ∧
      ∀ name ∈ g.bindings, Token.isName name.toList = true)) = true := by
  decide +kernel

theorem scaledSource_fields : (parseFile scaledSource.toList).toOption.all (fun file => decide
    (∀ r ∈ file.rules, ∀ f ∈ r.body.fields, HasOneName f)) = true := by
  decide +kernel

theorem compile_display_scaled : ∃ g, compile scaledSource = .ok g ∧
    ((∃ location, compile g.display = .error (.malformed location .nestingTooDeep)) ∨
      compile g.display = .ok g) := by
  obtain ⟨g, hg, hconstants⟩ := Compile.exists_compile_eq_ok_of_any scaledSource_constants
  obtain ⟨hquoted, hfloats, hbindings⟩ := of_decide_eq_true hconstants
  obtain ⟨file, hfile, -⟩ := compile_eq_ok.1 hg
  have hfields := scaledSource_fields
  rw [hfile] at hfields
  have hparts : Number.parts 1.5 = .finite false 6755399441055744 (-52) := by decide +kernel
  refine ⟨g, hg, compile_display hfile hg hquoted ?_ ?_ hbindings (of_decide_eq_true hfields)⟩
  · rw [hfloats, List.forall_mem_singleton, hparts]
    exact .inr (by norm_num)
  · rw [hfloats, List.forall_mem_singleton]
    decide +kernel

end TextGrammar
