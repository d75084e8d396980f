import TextGrammar.Proofs.Matching.Outcome
import TextGrammar.Proofs.Matching.Placement

/-! # Compiled names are there at run time

A grammar that compiles never runs into a name without a meaning: every rule that it refers to is
in its table, every capture that an action names is in its frame, and every local is assigned
before it is used. -/

namespace TextGrammar
open Matching (Reaches Leads Located Acts Passed Raises State ComesTo callWithin_comesTo)
open Compile (Clean ResolvesRule Compiles ruleNames lower_clean)

/-- An error that names a rule or a variable which is not there. -/
def RunError.IsDangling (e : RunError) : Prop :=
  (∃ rule name, e = .action rule (.undefinedVariable name)) ∨ ∃ index, e = .unknownRule index

/-- The rules of a compiled grammar are its source rules resolved. -/
theorem Compile.Compiles.resolves {file : Source.File} {g : Grammar} (h : Compiles file g) :
    List.Forall₂ (ResolvesRule (ruleNames file)) file.rules g.rules :=
  (lower_clean.1 h.lowered).2.1

section
variable {sources : List Source.Rule} {names : List String} {g : Grammar} {limit : Nat}

/-- Whatever is reached from a rule in the table stands at a place of the source. -/
theorem Matching.Reaches.located (hrules : List.Forall₂ (ResolvesRule names) sources g.rules)
    (hnames : names.length = sources.length) {levels index : Nat} (hindex : index < g.rules.length)
    {s : State} {b : Matching.Stage} (h : Reaches g limit (.call levels index, s) b) :
    Located sources g.rules b :=
  h.keeps (fun _ _ hab ha => hab.located hrules hnames ha) hindex

/-- The body of an action that is evaluated is sound, and its captures are in its frames. -/
theorem Matching.Acts.sound (hrules : List.Forall₂ (ResolvesRule names) sources g.rules)
    {s : State} {passed : List Passed} {e : Source.Expr} {locals : Nat} {body : Expr}
    (h : Acts sources g.rules s passed e locals body) :
    ∃ known, Action.SoundExpr known locals [] body ∧
      ∀ depth slot, known depth slot → Action.Filled s.visible depth slot := by
  obtain ⟨span, front, outer, slots, lowered, rfl, hplaced, hholds⟩ := h
  obtain ⟨scopes, hscopes, hclean⟩ := hplaced.resolved hrules
  obtain ⟨-, -, haction⟩ := Compile.Pairs.action.resolved hclean
  obtain ⟨own, hown, hbody⟩ := haction _ _ _ rfl
  exact ⟨_, Compile.lowerAction_sound hbody, fun depth slot hnamed =>
    Matching.filled_of_named hholds (.cons hown hscopes) hnamed⟩

/-- A call of a rule in the table raises no error about a name. -/
theorem Matching.ComesTo.not_dangling (hrules : List.Forall₂ (ResolvesRule names) sources g.rules)
    (hnames : names.length = sources.length) {levels index : Nat} (hindex : index < g.rules.length)
    {s : State} {e : RunError} (h : ComesTo g limit (.call levels index, s) e) :
    ¬e.IsDangling := by
  obtain ⟨b, hb, hraises⟩ := h
  have hlocated := hb.located hrules hnames hindex
  cases hraises with
  | @unknownRule _ index _ hr =>
    have hlt : index < g.rules.length := hlocated
    rw [Grammar.rule?, List.getElem?_eq_getElem hlt] at hr
    cases hr
  | depthLimit hr => rintro (⟨_, _, ⟨⟩⟩ | ⟨_, ⟨⟩⟩)
  | action hfault =>
    rintro (⟨_, name, heq⟩ | ⟨_, ⟨⟩⟩)
    cases heq
    obtain ⟨passed, source, hacts⟩ := hlocated
    obtain ⟨known, hsound, hknown⟩ := hacts.sound hrules
    exact Action.evaluate_defined hknown hsound name hfault

end

/-- A grammar that compiles never ends a run, from whichever rule, with an error about a name.
And wherever a run evaluates an action, each capture that is read is in its frame, and each local
that is read or assigned is one of the locals of the action and has a value. -/
theorem compile_name_safety {source : String} {g : Grammar} (hg : compile source = .ok g) :
    (∀ options input e, g.run options input = .error e → ¬e.IsDangling) ∧
    (∀ index < g.rules.length, ∀ maxDepth input e,
      g.matchRule index maxDepth input = .error e → ¬e.IsDangling) ∧
    ∀ index < g.rules.length, ∀ (maxDepth : Nat) (input : String) (locals : Nat) (body : Expr)
      (s : State), Reaches g maxDepth (.call maxDepth index, .start input.toList g.start)
        (.evaluation locals body, s) →
      ∀ v, Action.Visits s.visible (.expr body, List.replicate locals none) v →
        Action.Provided s.visible v ∧ v.2.length = locals := by
  obtain ⟨file, -, hcompiles⟩ := Compile.compile_eq_ok.1 hg
  have hrules := hcompiles.resolves
  have hnames : (ruleNames file).length = file.rules.length := List.length_map ..
  refine ⟨?_, ?_, ?_⟩
  · intro options input e he
    obtain ⟨name, rfl⟩ | hnoMatch | ⟨index, hindex, hfaults⟩ := Grammar.run_eq_error he
    · rintro (⟨_, _, ⟨⟩⟩ | ⟨_, ⟨⟩⟩)
    · rintro (⟨_, _, rfl⟩ | ⟨_, rfl⟩) <;> cases hnoMatch
    · exact (callWithin_comesTo hfaults).not_dangling hrules hnames hindex
  · intro index hindex maxDepth input e he
    exact (callWithin_comesTo (Grammar.matchRule_eq_error he)).not_dangling hrules hnames hindex
  · intro index hindex maxDepth input locals body s hs v hv
    obtain ⟨passed, e, hacts⟩ := hs.located hrules hnames hindex
    obtain ⟨known, hsound, hknown⟩ := hacts.sound hrules
    exact Action.visits_provided hknown hsound hv

def sumSource : String :=
  "meta \x7b total := [n: i64] => \x7b let mut sum = 0; for k in 0..n \x7b sum += k; \x7d " ++
    "sum \x7d; --- total \x7d"

theorem compile_name_safety_sum : ∃ g, compile sumSource = .ok g ∧
    ∀ options input e, g.run options input = .error e → ¬e.IsDangling := by
  obtain ⟨g, hg⟩ := Compile.exists_compile_eq_ok sumSource (by decide +kernel)
  exact ⟨g, hg, (compile_name_safety hg).1⟩

end TextGrammar
