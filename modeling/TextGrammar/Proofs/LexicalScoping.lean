import TextGrammar.Proofs.Compile.Meaning
import TextGrammar.Proofs.NameSafety

/-! # Slots preserve lexical scoping

Numbering the names of a grammar does not change what its actions mean. At every place of a
source, and whatever the sequences around it have bound, an action evaluates by slot like it does
by name; and a run evaluates each action with what those sequences have bound. -/

namespace TextGrammar
open Matching (Passed Holds passedFields Placed Acts Reaches State)
open Compile (Clean Inside Within ResolvesRule Finds ruleNames lower_clean clean_iff)

/-- A body that was resolved evaluates like its source. -/
theorem Compile.evaluate_eq {scopes : List Compile.Scope} {passed : List Passed}
    {frames : List Action.Frame} (hfinds : Finds scopes passed frames) {e : Source.Expr}
    {body : Expr} {locals : Nat} (h : Clean (Compile.lowerAction scopes e) (body, locals)) :
    Action.evaluate locals body frames = Reference.evaluate passed e := by
  have hsimulates : Action.Simulates (Action.Mirrors locals []) (Action.operand frames body)
      (Reference.operand passed e) (fun _ => Action.Mirrors locals []) :=
    Compile.operand_simulates hfinds h ⟨List.nodup_nil, nofun⟩ (Nat.le_refl locals)
  unfold Action.evaluate Reference.evaluate
  obtain ⟨fault, hbody, he⟩ | ⟨o, L, E, hbody, he, -⟩ :=
    hsimulates (List.replicate locals none) [] ⟨List.length_replicate, .nil⟩
  · unfold Faults at hbody he
    rw [hbody, he]
    rfl
  · unfold Yields at hbody he
    rw [hbody, he]
    rfl

section
variable {sources : List Source.Rule} {rules : List Rule} {names : List String}

/-- At a place of the source, an action evaluates by slot like it does by name. -/
theorem Matching.Placed.evaluate_eq (hrules : List.Forall₂ (ResolvesRule names) sources rules)
    {index : Nat} {front : Passed} {outer : List Passed} {span : Span} {e : Source.Expr}
    {slots locals : Nat} {lowered : List Field} {body : Expr} {frames : List Action.Frame}
    (h : Placed sources rules index (outer.map passedFields)
      (.sequence span (passedFields front) (some e)) (.action slots lowered locals body))
    (hframes : List.Forall₂ Holds (front :: outer) frames) :
    Action.evaluate locals body frames = Reference.evaluate (front :: outer) e := by
  obtain ⟨scopes, hscopes, hclean⟩ := h.resolved hrules
  obtain ⟨-, -, haction⟩ := Compile.Pairs.action.resolved hclean
  obtain ⟨own, hown, hbody⟩ := haction _ _ _ rfl
  exact Compile.evaluate_eq (Compile.finds_of_holds hframes (.cons hown hscopes)) hbody

/-- Every action of a source rule has a compiled action at its place. -/
theorem Compile.Inside.placed (hrules : List.Forall₂ (ResolvesRule names) sources rules)
    {index : Nat} {source : Source.Rule} (hsource : sources[index]? = some source)
    {fronts : List (List Source.Field)} {span : Span} {fields : List Source.Field}
    {e : Source.Expr} (h : Inside source.body fronts (.sequence span fields (some e))) :
    ∃ slots lowered locals body, Placed sources rules index fronts
      (.sequence span fields (some e)) (.action slots lowered locals body) := by
  obtain ⟨r, hr, -, hroot⟩ := Compile.getElem?_of_resolvesRule hrules hsource
  obtain ⟨q, hq⟩ := h.within hroot
  obtain ⟨scopes, -, hclean⟩ := hq.resolved hroot
  cases Compile.lowerPattern_clean.1 hclean with
  | action =>
    exact ⟨_, _, _, _, source, r, hsource, hr, hq⟩

end

/-- In a source that resolves without findings, every action has a compiled one at its place.
There they evaluate to the same value or the same fault for all that the sequences around them
may have bound, the one by slot and the other by name. And wherever a run evaluates an action, it
does so at such a place and with what those sequences have bound. -/
theorem lower_preserves_scoping {file : Source.File} (hfile : (Compile.lower file).findings = []) :
    (∀ index source, file.rules[index]? = some source → ∀ fronts span fields e,
      Inside source.body fronts (.sequence span fields (some e)) →
      ∃ slots lowered locals body, Placed file.rules (Compile.lower file).result.rules index fronts
        (.sequence span fields (some e)) (.action slots lowered locals body)) ∧
    (∀ index (front : Passed) (outer : List Passed) span e slots lowered locals body,
      Placed file.rules (Compile.lower file).result.rules index (outer.map passedFields)
        (.sequence span (passedFields front) (some e)) (.action slots lowered locals body) →
      ∀ frames, List.Forall₂ Holds (front :: outer) frames →
        Action.evaluate locals body frames = Reference.evaluate (front :: outer) e) ∧
    ∀ g : Grammar, g.rules = (Compile.lower file).result.rules → ∀ index < g.rules.length,
      ∀ (limit : Nat) (input : List Char) (locals : Nat) (body : Expr) (s : State),
        Reaches g limit (.call limit index, .start input g.start) (.evaluation locals body, s) →
        ∃ passed e, Acts file.rules g.rules s passed e locals body ∧
          Action.evaluate locals body s.visible = Reference.evaluate passed e := by
  have hrules := (lower_clean.1 (clean_iff.2 ⟨rfl, hfile⟩)).2.1
  refine ⟨?_, ?_, ?_⟩
  · intro index source hsource fronts span fields e he
    exact he.placed hrules hsource
  · intro index front outer span e slots lowered locals body hplaced frames hframes
    exact hplaced.evaluate_eq hrules hframes
  · intro g hg index hindex limit input locals body s hs
    rw [← hg] at hrules
    have hnames : (ruleNames file).length = file.rules.length := List.length_map ..
    obtain ⟨passed, e, hacts⟩ := hs.located hrules hnames hindex
    refine ⟨passed, e, hacts, ?_⟩
    obtain ⟨span, front, outer, slots, lowered, rfl, hplaced, hholds⟩ := hacts
    exact hplaced.evaluate_eq hrules hholds

/-- A rule whose action declares a variable in its own initial value, hides it in a loop, and
reads it again behind the loop. -/
def shadowSource : String :=
  "meta \x7b r := [n: i64] => \x7b let n = n + 1; for k in 0..2 \x7b let n = k; \x7d n \x7d; " ++
    "--- r \x7d"

theorem lower_preserves_scoping_shadow :
    ∃ file, Source.parseFile shadowSource.toList = .ok file ∧
      ∀ g : Grammar, g.rules = (Compile.lower file).result.rules → ∀ index < g.rules.length,
        ∀ (limit : Nat) (input : List Char) (locals : Nat) (body : Expr) (s : State),
          Reaches g limit (.call limit index, .start input g.start) (.evaluation locals body, s) →
          ∃ passed e, Acts file.rules g.rules s passed e locals body ∧
            Action.evaluate locals body s.visible = Reference.evaluate passed e := by
  obtain ⟨g, hg⟩ := Compile.exists_compile_eq_ok shadowSource (by decide +kernel)
  obtain ⟨file, hfile, hcompiles⟩ := Compile.compile_eq_ok.1 hg
  exact ⟨file, hfile,
    (lower_preserves_scoping (clean_iff.1 hcompiles.lowered).2).2.2⟩

end TextGrammar
