import TextGrammar.Proofs.Matching.OpenRules
import TextGrammar.Proofs.Matching.Outlasting

/-! # The nesting limit only cuts runs short

A run that its nesting limit does not end is the same run with a higher limit. Where the limit does
end a run, as many rules are open as it allows. -/

namespace TextGrammar

namespace Grammar
variable {g : Grammar} {maxDepth index : Nat} {input : List Char} {rule : String} {n : Nat}

/-- A call that its nesting limit does not end is the same with a higher limit. -/
theorem callFrom_of_le {higher : Nat} (h : maxDepth ≤ higher)
    (hends : ∀ rule n, (g.callFrom maxDepth index input).1 ≠ .error (.depthLimit rule n)) :
    g.callFrom higher index input = g.callFrom maxDepth index input := by
  obtain ⟨rule, n, hfaults⟩ | hsame :=
    Matching.callWithin_outlasts g h index (.start input g.start)
  · exact absurd hfaults (hends rule n)
  · exact hsame

/-- The error of the nesting limit names the limit. -/
theorem limit_eq_of_callFrom
    (h : (g.callFrom maxDepth index input).1 = .error (.depthLimit rule n)) : n = maxDepth := by
  obtain ⟨b, -, hraises⟩ := Matching.callWithin_comesTo (callFrom_faults h)
  cases hraises
  rfl

/-- Where the nesting limit ends a call, as many rules are open as the matcher has counted and as
the limit allows. -/
theorem OpenAtFault.full {opened : List Log.Entry}
    (h : g.OpenAtFault maxDepth index input (.depthLimit rule n) opened) :
    opened.length = maxDepth ∧ (g.callFrom maxDepth index input).2.depth = maxDepth :=
  ⟨h.length_eq, h.hasOpen.depth.trans h.length_eq⟩

end Grammar

/-- For every grammar, rule to start from, input and limit: a run that the limit does not end gives
the same with a higher limit, be it a value, a capture with the number of bytes consumed, an error
with its location, or a failure, and logs the same. And if the limit does end the run, then the
error names it, and at that moment as many rules are open as it allows. -/
theorem depth_limit_cuts_short (g : Grammar) (input : String) :
    (∀ (options : RunOptions) (higher : Nat), options.maxDepth ≤ higher →
      (∀ rule n, g.run options input ≠ .error (.depthLimit rule n)) →
      g.runLogged { options with maxDepth := higher } input = g.runLogged options input) ∧
    (∀ index maxDepth higher, maxDepth ≤ higher →
      (∀ rule n, g.matchRule index maxDepth input ≠ .error (.depthLimit rule n)) →
      g.matchRuleLogged index higher input = g.matchRuleLogged index maxDepth input) ∧
    (∀ (options : RunOptions) rule n, g.run options input = .error (.depthLimit rule n) →
      n = options.maxDepth ∧ ∃ index, g.startFor options = .ok index ∧
        (∃ opened, g.OpenAtFault options.maxDepth index input.toList (.depthLimit rule n) opened) ∧
        ∀ opened, g.OpenAtFault options.maxDepth index input.toList (.depthLimit rule n) opened →
          opened.length = options.maxDepth ∧
          (g.callFrom options.maxDepth index input.toList).2.depth = options.maxDepth) ∧
    ∀ index maxDepth rule n, g.matchRule index maxDepth input = .error (.depthLimit rule n) →
      n = maxDepth ∧
        (∃ opened, g.OpenAtFault maxDepth index input.toList (.depthLimit rule n) opened) ∧
        ∀ opened, g.OpenAtFault maxDepth index input.toList (.depthLimit rule n) opened →
          opened.length = maxDepth ∧
          (g.callFrom maxDepth index input.toList).2.depth = maxDepth := by
  refine ⟨?_, ?_, ?_, ?_⟩
  · intro options higher hle hends
    cases hstart : g.startFor options with
    | error e =>
      have hstart' : g.startFor { options with maxDepth := higher } = .error e := hstart
      rw [Grammar.runLogged_of_startFor_error hstart', Grammar.runLogged_of_startFor_error hstart]
    | ok index =>
      have hcall : g.callFrom higher index input.toList =
          g.callFrom options.maxDepth index input.toList :=
        Grammar.callFrom_of_le hle fun rule n hcall =>
          hends rule n (Grammar.run_of_fault hstart hcall)
      have hstart' : g.startFor { options with maxDepth := higher } = .ok index := hstart
      rw [Grammar.runLogged_of_startFor_ok hstart', Grammar.runLogged_of_startFor_ok hstart, hcall]
  · intro index maxDepth higher hle hends
    have hcall : g.callFrom higher index input.toList = g.callFrom maxDepth index input.toList :=
      Grammar.callFrom_of_le hle fun rule n hcall =>
        hends rule n (Grammar.matchRule_of_fault hcall)
    rw [Grammar.matchRuleLogged, Grammar.matchRuleLogged, hcall]
  · intro options rule n h
    cases hstart : g.startFor options with
    | error e =>
      obtain ⟨name, rfl⟩ := Grammar.startFor_eq_error hstart
      rw [Grammar.run, Grammar.runLogged_of_startFor_error hstart] at h
      cases h
    | ok index =>
      have hcall := Grammar.run_eq_fault hstart h rfl
      exact ⟨Grammar.limit_eq_of_callFrom hcall, index, rfl, Grammar.exists_openAtFault hcall,
        fun _ hopened => hopened.full⟩
  · intro index maxDepth rule n h
    have hcall : (g.callFrom maxDepth index input.toList).1 = .error (.depthLimit rule n) :=
      Grammar.matchRule_eq_error h
    exact ⟨Grammar.limit_eq_of_callFrom hcall, Grammar.exists_openAtFault hcall,
      fun _ hopened => hopened.full⟩

def guardedGrammar : Grammar :=
  ⟨[⟨"guard", .negation (.rule 1 none)⟩, ⟨"outer", .rule 2 none⟩, ⟨"inner", .literal "x"⟩], 0,
    by decide⟩

/-- With room for two rules the guard neither matches nor fails in front of a `y`; with room for
three it matches, and so it does with room for ten. -/
theorem depth_limit_cuts_short_guarded :
    (guardedGrammar.matchRuleLogged 0 10 "y" = guardedGrammar.matchRuleLogged 0 3 "y" ∧
      guardedGrammar.matchRule 0 3 "y" = .ok (some (.unit, 0))) ∧
    ∃ opened, guardedGrammar.OpenAtFault 2 0 "y".toList (.depthLimit "inner" 2) opened ∧
      opened.length = 2 := by
  have hmatches : guardedGrammar.matchRule 0 3 "y" = .ok (some (.unit, 0)) := by rfl
  have hended : guardedGrammar.matchRule 0 2 "y" = .error (.depthLimit "inner" 2) := by rfl
  obtain ⟨-, hsame, -, hfull⟩ := depth_limit_cuts_short guardedGrammar "y"
  refine ⟨⟨hsame 0 3 10 (by decide) (fun _ _ => by rw [hmatches]; nofun), hmatches⟩, ?_⟩
  obtain ⟨-, ⟨opened, hopened⟩, hlength⟩ := hfull 0 2 "inner" 2 hended
  exact ⟨opened, hopened, (hlength opened hopened).1⟩

end TextGrammar
