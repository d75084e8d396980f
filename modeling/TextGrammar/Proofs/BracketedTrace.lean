import TextGrammar.Proofs.Matching.OpenRules

/-! # Traces are well bracketed

A run logs each rule that it enters, and where it leaves it. These events are balanced, whatever
the matcher went back over in between. Only a fault leaves rules open, and these are the last ones
that the trace has not closed. -/

namespace TextGrammar
open Log (Bracketed Pending brackets unclosed)

namespace Grammar
variable {g : Grammar} {maxDepth index : Nat} {input : List Char} {e : RunError}

/-- A call that ends without a fault has left all rules that it entered. -/
theorem callFrom_bracketed {c : Matching.Outcome}
    (h : (g.callFrom maxDepth index input).1 = .ok c) :
    Bracketed (Text.byteLength input) maxDepth 0 (g.callFrom maxDepth index input).2.trace := by
  have hyields : Matching.Yields (Matching.callWithin g maxDepth maxDepth index)
      (.start input g.start) c (g.callFrom maxDepth index input).2 := Prod.ext h rfl
  obtain ⟨events, htrace, hevents⟩ :=
    Matching.callWithin_logs g maxDepth maxDepth index hyields (Nat.zero_add _)
  rw [htrace]
  exact hevents

/-- However a call ends, its trace can be closed. -/
theorem exists_pending (g : Grammar) (maxDepth index : Nat) (input : List Char) :
    ∃ opened, Pending (Text.byteLength input) maxDepth 0 opened
      (g.callFrom maxDepth index input).2.trace := by
  cases hcall : (g.callFrom maxDepth index input).1 with
  | ok c => exact ⟨[], .closed (callFrom_bracketed hcall)⟩
  | error e =>
    obtain ⟨opened, hopened⟩ := exists_openAtFault hcall
    exact ⟨opened, hopened.hasOpen.trace⟩

theorem callFrom_closable (g : Grammar) (maxDepth index : Nat) (input : List Char) :
    ∃ more, Bracketed (Text.byteLength input) maxDepth 0
      ((g.callFrom maxDepth index input).2.trace ++ more) := by
  obtain ⟨opened, hopened⟩ := exists_pending g maxDepth index input
  exact hopened.closable

/-- At no point of a call more rules are open than its limit allows. -/
theorem length_unclosed_le {front : List Log.Event}
    (h : front <+: (g.callFrom maxDepth index input).2.trace) :
    (unclosed front).length ≤ maxDepth := by
  obtain ⟨opened, hopened⟩ := exists_pending g maxDepth index input
  exact hopened.length_unclosed_le h

/-- The rules that are open at a fault are those that the trace has not closed. -/
theorem openAtFault_iff (h : (g.callFrom maxDepth index input).1 = .error e)
    (opened : List Log.Entry) : g.OpenAtFault maxDepth index input e opened ↔
      opened = unclosed (g.callFrom maxDepth index input).2.trace := by
  have hunclosed : ∀ opened, g.OpenAtFault maxDepth index input e opened →
      opened = unclosed (g.callFrom maxDepth index input).2.trace :=
    fun opened hopened => hopened.hasOpen.trace.unclosed_eq.symm
  refine ⟨hunclosed opened, fun heq => ?_⟩
  obtain ⟨opened', hopened'⟩ := exists_openAtFault h
  rw [heq, ← hunclosed opened' hopened']
  exact hopened'

/-- The brackets in the log of a call are all that it logs. -/
theorem brackets_matchRuleLogged (g : Grammar) (index maxDepth : Nat) (input : String) :
    brackets (g.matchRuleLogged index maxDepth input).2 =
      (g.callFrom maxDepth index input.toList).2.trace := by
  obtain ⟨opened, hopened⟩ := exists_pending g maxDepth index input.toList
  exact hopened.brackets_eq

theorem brackets_runLogged {options : RunOptions} (h : g.startFor options = .ok index)
    (input : String) : brackets (g.runLogged options input).2 =
      (g.callFrom options.maxDepth index input.toList).2.trace := by
  rw [runLogged_of_startFor_ok h]
  exact brackets_matchRuleLogged g index options.maxDepth input

theorem brackets_runLogged_refused {options : RunOptions} (h : g.startFor options = .error e)
    (input : String) : brackets (g.runLogged options input).2 = [] := by
  rw [runLogged_of_startFor_error h]
  rfl

end Grammar

/-- For every grammar, input and limit the events by which a run enters and leaves rules are
balanced if it ends without a fault, and if it ends with a fault they can be balanced by further
ones, and those that are not are of the rules that were open, the innermost last. At no point are
more rules open than the limit allows. -/
theorem trace_bracketed (g : Grammar) (input : String) :
    (∀ options, (∀ e, g.run options input = .error e → e.isNoMatch = true) →
      Bracketed (Text.byteLength input.toList) options.maxDepth 0
        (brackets (g.runLogged options input).2)) ∧
    (∀ index maxDepth c, g.matchRule index maxDepth input = .ok c →
      Bracketed (Text.byteLength input.toList) maxDepth 0
        (brackets (g.matchRuleLogged index maxDepth input).2)) ∧
    (∀ options e, g.run options input = .error e → e.isNoMatch = false →
      (∃ more, Bracketed (Text.byteLength input.toList) options.maxDepth 0
        (brackets (g.runLogged options input).2 ++ more)) ∧
      (g.startFor options = .error e ∧ brackets (g.runLogged options input).2 = [] ∨
        ∃ index, g.startFor options = .ok index ∧
          ∀ opened, g.OpenAtFault options.maxDepth index input.toList e opened ↔
            opened = unclosed (brackets (g.runLogged options input).2))) ∧
    (∀ index maxDepth e, g.matchRule index maxDepth input = .error e →
      (∃ more, Bracketed (Text.byteLength input.toList) maxDepth 0
        (brackets (g.matchRuleLogged index maxDepth input).2 ++ more)) ∧
      ∀ opened, g.OpenAtFault maxDepth index input.toList e opened ↔
        opened = unclosed (brackets (g.matchRuleLogged index maxDepth input).2)) ∧
    (∀ options front, front <+: brackets (g.runLogged options input).2 →
      (unclosed front).length ≤ options.maxDepth) ∧
    ∀ index maxDepth front, front <+: brackets (g.matchRuleLogged index maxDepth input).2 →
      (unclosed front).length ≤ maxDepth := by
  refine ⟨?_, ?_, ?_, ?_, ?_, ?_⟩
  · intro options hends
    cases hstart : g.startFor options with
    | error e =>
      rw [Grammar.brackets_runLogged_refused hstart]
      exact .nil
    | ok index =>
      rw [Grammar.brackets_runLogged hstart]
      cases hcall : (g.callFrom options.maxDepth index input.toList).1 with
      | ok c => exact Grammar.callFrom_bracketed hcall
      | error e =>
        have hfault := Grammar.isNoMatch_of_callFrom hcall
        rw [hends e (Grammar.run_of_fault hstart hcall)] at hfault
        cases hfault
  · intro index maxDepth c h
    rw [Grammar.brackets_matchRuleLogged]
    cases hcall : (g.callFrom maxDepth index input.toList).1 with
    | ok c => exact Grammar.callFrom_bracketed hcall
    | error e =>
      rw [Grammar.matchRule_of_fault hcall] at h
      cases h
  · intro options e h hfault
    cases hstart : g.startFor options with
    | error e' =>
      have hrun := h
      rw [Grammar.run, Grammar.runLogged_of_startFor_error hstart] at hrun
      cases hrun
      rw [Grammar.brackets_runLogged_refused hstart]
      exact ⟨⟨[], .nil⟩, .inl ⟨rfl, rfl⟩⟩
    | ok index =>
      rw [Grammar.brackets_runLogged hstart]
      exact ⟨Grammar.callFrom_closable g options.maxDepth index input.toList,
        .inr ⟨index, rfl, Grammar.openAtFault_iff (Grammar.run_eq_fault hstart h hfault)⟩⟩
  · intro index maxDepth e h
    have hcall : (g.callFrom maxDepth index input.toList).1 = .error e :=
      Grammar.matchRule_eq_error h
    rw [Grammar.brackets_matchRuleLogged]
    exact ⟨Grammar.callFrom_closable g maxDepth index input.toList, Grammar.openAtFault_iff hcall⟩
  · intro options front hfront
    cases hstart : g.startFor options with
    | error e =>
      rw [Grammar.brackets_runLogged_refused hstart] at hfront
      rw [List.prefix_nil.1 hfront]
      exact Nat.zero_le _
    | ok index =>
      rw [Grammar.brackets_runLogged hstart] at hfront
      exact Grammar.length_unclosed_le hfront
  · intro index maxDepth front hfront
    rw [Grammar.brackets_matchRuleLogged] at hfront
    exact Grammar.length_unclosed_le hfront

def retryingGrammar : Grammar :=
  ⟨[⟨"retry", .choice [.sequence 0 [(none, .rule 1 none), (none, .literal "!")], .rule 1 none]⟩,
    ⟨"word", .choice [.literal "x", .rule 2 none]⟩, ⟨"deep", .literal "y"⟩], 0, by decide⟩

/-- The second alternative enters the same rule at the same place again. With room for two rules
only, the third one is what the run ends at. -/
theorem trace_bracketed_retrying :
    (Bracketed 1 2 0 (brackets (retryingGrammar.matchRuleLogged 0 2 "x").2) ∧
      brackets (retryingGrammar.matchRuleLogged 0 2 "x").2 =
        [.entering "retry" 0, .entering "word" 0, .leaving "word" 1 true,
          .entering "word" 0, .leaving "word" 1 true, .leaving "retry" 1 true]) ∧
    retryingGrammar.OpenAtFault 2 0 "y".toList (.depthLimit "deep" 2)
      [⟨"retry", 0⟩, ⟨"word", 0⟩] := by
  have hmatches : retryingGrammar.matchRule 0 2 "x" = .ok (some (.text "x", 1)) := by rfl
  have hended : retryingGrammar.matchRule 0 2 "y" = .error (.depthLimit "deep" 2) := by rfl
  refine ⟨⟨(trace_bracketed retryingGrammar "x").2.1 0 2 _ hmatches, rfl⟩, ?_⟩
  obtain ⟨-, hopen⟩ := (trace_bracketed retryingGrammar "y").2.2.2.1 0 2 _ hended
  exact (hopen _).2 rfl

end TextGrammar
