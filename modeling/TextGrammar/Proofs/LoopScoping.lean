import TextGrammar.Proofs.Action.Loops
import TextGrammar.Proofs.Compile.Breaks
import TextGrammar.Proofs.NameSafety

/-! # Loops and breaks of compiled actions

In a grammar that compiles every break leaves the innermost loop around it, and nothing else. A
loop has a round for one integer after the other, whatever its body does and whatever its bounds
are, until a round comes to a break of its own. -/

namespace TextGrammar
open Matching (Reaches Acts State Passed)
open Compile (ResolvesRule ruleNames Compiles)
open Number (inRange_toInt)

namespace Action

/-- How loops and breaks act in an evaluation with some frames, from a part of it on. -/
structure LoopsScoped (frames : List Frame) (v : Visit) : Prop where
  /-- No statement that an expression runs leaves a loop. -/
  onward : ∀ s rest L flow M, Visits frames v (.all (s :: rest), L) →
    Yields (run frames s) L flow M → flow = .onward
  /-- A loop with two integers as its bounds runs its body in rounds. They have the numbers from the
  lower bound on, all below the upper one, and start with their number in the variable of the loop.
  If none of them is left or faults, there is one for every such number. -/
  rounds : ∀ name slot start stop body L,
    Visits frames v (.stmt (.loop name slot start stop body), L) →
    ∀ (o p : Operand) (M N : Locals) (a b : Int64),
      Yields (operand frames start) L o M → o.toValue = .int a →
      Yields (operand frames stop) M p N → p.toValue = .int b →
      ∃ rounds result, LoopRuns frames slot body b.toInt a.toInt N rounds result ∧
        (run frames (.loop name slot start stop body)).run L =
          result.map (Prod.mk Flow.onward) ∧
        rounds.map Round.number = (List.range rounds.length).map (fun k : Nat => a.toInt + k) ∧
        (∀ r ∈ rounds, r.number < b.toInt ∧ Visits frames v (.block body, r.start) ∧
          ∃ n : Int64, n.toInt = r.number ∧ r.start[slot]? = some (some (.int n))) ∧
        ((∀ r ∈ rounds, ∃ K, Yields (runBlock frames body) r.start .onward K) →
          rounds.length = (b.toInt - a.toInt).toNat)
  /-- A statement that leaves its loop ends the statements around it: none after it is run. -/
  left : ∀ s rest L M, Visits frames v (.stmts (s :: rest), L) → Yields (run frames s) L .left M →
    Yields (runStmts frames (s :: rest)) L .left M ∧
    ∀ w, Visits frames (.stmts (s :: rest), L) w →
      w = (.stmts (s :: rest), L) ∨ Visits frames (.stmt s, L) w

/-- Loops and breaks are scoped in every evaluation of contained and sound code. -/
theorem loopsScoped {frames : List Frame} {known : Nat → Nat → Prop} {total : Nat} {body : Expr}
    (hknown : ∀ depth slot, known depth slot → Filled frames depth slot)
    (hsound : SoundExpr known total [] body) (hcontained : ContainedExpr body) :
    LoopsScoped frames (.expr body, List.replicate total none) where
  onward s rest L flow M hv hs := by
    have hbody : ContainedPart false (.expr body) := hcontained
    obtain ⟨inner, hstmts⟩ := visits_contained hv hbody
    exact run_onward hstmts.1 hs
  rounds name slot start stop block L hv o p M N a b ho ha hp hb := by
    have hrounds := hv.tail (.rounds ho (asInteger_eq_ok.2 ha) hp (asInteger_eq_ok.2 hb))
    have hslot : slot < N.length := (visits_provided hknown hsound hrounds).1
    obtain ⟨rounds, result, hruns⟩ : ∃ rounds result,
        LoopRuns frames slot block b.toInt a.toInt N rounds result :=
      exists_loopRuns (inRange_toInt a) (inRange_toInt b) N
    exact ⟨rounds, result, hruns, run_loop name ho ha hp hb hruns hslot, hruns.numbers,
      fun r hr => ⟨hruns.lt_stop r hr, hrounds.trans (hruns.visits name hslot r hr),
        hruns.holds hslot r hr⟩, hruns.length_eq⟩
  left s rest L M _ hs :=
    ⟨yields_bind.2 ⟨_, _, hs, yields_pure.2 ⟨rfl, rfl⟩⟩, fun _ hw => visits_of_left hs hw⟩

end Action

/-- The body of an action that is evaluated is contained. -/
theorem Matching.Acts.contained {sources : List Source.Rule} {names : List String} {g : Grammar}
    (hrules : List.Forall₂ (ResolvesRule names) sources g.rules) {s : State}
    {passed : List Passed} {e : Source.Expr} {locals : Nat} {body : Expr}
    (h : Acts sources g.rules s passed e locals body) : Action.ContainedExpr body := by
  obtain ⟨span, front, outer, slots, lowered, rfl, hplaced, -⟩ := h
  obtain ⟨scopes, -, hclean⟩ := hplaced.resolved hrules
  obtain ⟨-, -, haction⟩ := Compile.Pairs.action.resolved hclean
  obtain ⟨own, -, hbody⟩ := haction _ _ _ rfl
  exact Compile.lowerAction_contained hbody

/-- Wherever a run of a grammar that compiles evaluates an action, from whichever rule it starts,
loops and breaks are scoped. -/
theorem compile_loop_scoping {source : String} {g : Grammar} (hg : compile source = .ok g) :
    ∀ index < g.rules.length, ∀ (maxDepth : Nat) (input : String) (locals : Nat) (body : Expr)
      (s : State), Reaches g maxDepth (.call maxDepth index, .start input.toList g.start)
        (.evaluation locals body, s) →
      Action.LoopsScoped s.visible (.expr body, List.replicate locals none) := by
  intro index hindex maxDepth input locals body s hs
  obtain ⟨file, -, hcompiles⟩ := Compile.compile_eq_ok.1 hg
  have hrules := hcompiles.resolves
  have hnames : (ruleNames file).length = file.rules.length := List.length_map ..
  obtain ⟨passed, e, hacts⟩ := hs.located hrules hnames hindex
  obtain ⟨known, hsound, hknown⟩ := hacts.sound hrules
  exact Action.loopsScoped hknown hsound (hacts.contained hrules)

/-- A rule that counts the pairs of integers below a number, the second of a pair below the first
and the first one at most three. -/
def pairSource : String :=
  "meta \x7b pairs := [n: i64] => \x7b let mut count = 0; for i in 0..n \x7b " ++
    "for j in 0..n \x7b if j == i \x7b break; \x7d count += 1; \x7d " ++
    "if i == 3 \x7b break; count += 100; \x7d \x7d count \x7d; --- pairs \x7d"

theorem compile_loop_scoping_pairs : ∃ g, compile pairSource = .ok g ∧
    (g.run {} "10").toOption.map Value.display = some "6" ∧
    ∀ index < g.rules.length, ∀ (maxDepth : Nat) (input : String) (locals : Nat) (body : Expr)
      (s : State), Reaches g maxDepth (.call maxDepth index, .start input.toList g.start)
        (.evaluation locals body, s) →
      Action.LoopsScoped s.visible (.expr body, List.replicate locals none) := by
  have hcheck : (compile pairSource).toOption.any (fun g =>
      (g.run {} "10").toOption.map Value.display == some "6") = true := by decide +kernel
  obtain ⟨g, hg, hrun⟩ := Compile.exists_compile_eq_ok_of_any hcheck
  exact ⟨g, hg, eq_of_beq hrun, compile_loop_scoping hg⟩

end TextGrammar
