import TextGrammar.Proofs.Matching.Execution

/-! # How a run ends

A run that is not refused for its start rule ends as the call of its start rule does, or finds
that the input does not match. -/

namespace TextGrammar.Grammar
open Matching (State callWithin)
variable {g : Grammar}

theorem callFrom_faults {maxDepth index : Nat} {input : List Char} {e : RunError}
    (h : (g.callFrom maxDepth index input).1 = .error e) :
    Matching.Faults (callWithin g maxDepth maxDepth index) (.start input g.start) e := h

theorem runLogged_of_startFor_error {options : RunOptions} {e : RunError}
    (h : g.startFor options = .error e) (input : String) :
    g.runLogged options input = (.error e, []) := by
  unfold runLogged
  rw [h]

theorem runLogged_of_startFor_ok {options : RunOptions} {index : Nat}
    (h : g.startFor options = .ok index) (input : String) :
    g.runLogged options input =
      ((g.callFrom options.maxDepth index input.toList).1.bind fun c =>
          conclude input.toList c (g.callFrom options.maxDepth index input.toList).2,
        .running (g.nameOf index) (Text.byteLength input.toList) ::
          (g.callFrom options.maxDepth index input.toList).2.log.reverse) := by
  unfold runLogged
  rw [h]

/-- A fault of the start rule is one of the run. -/
theorem run_of_fault {options : RunOptions} {index : Nat} {input : String} {e : RunError}
    (hstart : g.startFor options = .ok index)
    (h : (g.callFrom options.maxDepth index input.toList).1 = .error e) :
    g.run options input = .error e := by
  rw [run, runLogged_of_startFor_ok hstart, h]
  rfl

theorem matchRule_of_fault {index maxDepth : Nat} {input : String} {e : RunError}
    (h : (g.callFrom maxDepth index input.toList).1 = .error e) :
    g.matchRule index maxDepth input = .error e := by
  change (g.callFrom maxDepth index input.toList).1.map _ = _
  rw [h]
  rfl

theorem find?_lt {name : String} {index : Nat} (h : g.find? name = some index) :
    index < g.rules.length :=
  (List.findIdx?_eq_some_iff_findIdx_eq.1 h).1

theorem startFor_lt {options : RunOptions} {index : Nat} (h : g.startFor options = .ok index) :
    index < g.rules.length := by
  unfold startFor at h
  split at h
  · cases h
    exact g.start_lt
  · split at h
    · cases h
      exact find?_lt ‹_›
    · cases h

theorem startFor_eq_error {options : RunOptions} {e : RunError}
    (h : g.startFor options = .error e) : ∃ name, e = .unknownStart name := by
  unfold startFor at h
  split at h
  · cases h
  · split at h <;> cases h
    exact ⟨_, rfl⟩

theorem conclude_eq_error {input : List Char} {c : Matching.Outcome} {s : State} {e : RunError}
    (h : conclude input c s = .error e) : e.isNoMatch = true := by
  unfold conclude at h
  split at h <;> cases h
  rfl

/-- A run without a value is refused, does not match, or is ended by a fault of its start rule. -/
theorem run_eq_error {options : RunOptions} {input : String} {e : RunError}
    (h : g.run options input = .error e) :
    (∃ name, e = .unknownStart name) ∨ e.isNoMatch = true ∨
      ∃ index, index < g.rules.length ∧
        Matching.Faults (callWithin g options.maxDepth options.maxDepth index)
          (.start input.toList g.start) e := by
  unfold run runLogged at h
  cases hstart : g.startFor options with
  | error e' =>
    rw [hstart] at h
    cases h
    exact .inl (startFor_eq_error hstart)
  | ok index =>
    rw [hstart] at h
    cases hcall : (g.callFrom options.maxDepth index input.toList).1 with
    | error e' =>
      have heq : e' = e := by simpa [hcall, Except.bind] using h
      subst heq
      exact .inr (.inr ⟨index, startFor_lt hstart, callFrom_faults hcall⟩)
    | ok c =>
      have hconclude : conclude input.toList c
          (g.callFrom options.maxDepth index input.toList).2 = .error e := by
        simpa [hcall, Except.bind] using h
      exact .inr (.inl (conclude_eq_error hconclude))

/-- A run that is ended by a fault is ended by the fault of its start rule. -/
theorem run_eq_fault {options : RunOptions} {input : String} {e : RunError} {index : Nat}
    (hstart : g.startFor options = .ok index) (h : g.run options input = .error e)
    (hfault : e.isNoMatch = false) :
    (g.callFrom options.maxDepth index input.toList).1 = .error e := by
  unfold run at h
  rw [runLogged_of_startFor_ok hstart] at h
  cases hcall : (g.callFrom options.maxDepth index input.toList).1 with
  | error e' => simpa [hcall, Except.bind] using h
  | ok c =>
    rw [hcall] at h
    rw [conclude_eq_error h] at hfault
    cases hfault

/-- A run with a value has matched its start rule, and nothing of the input is left. -/
theorem run_eq_ok {options : RunOptions} {input : String} {v : Value}
    (h : g.run options input = .ok v) :
    ∃ index c s, g.startFor options = .ok index ∧
      Matching.Yields (callWithin g options.maxDepth options.maxDepth index)
        (.start input.toList g.start) (some c) s ∧ s.place.rest = [] ∧ v = c.toValue := by
  unfold run runLogged at h
  cases hstart : g.startFor options with
  | error e =>
    rw [hstart] at h
    cases h
  | ok index =>
    rw [hstart] at h
    rcases hcall : g.callFrom options.maxDepth index input.toList with ⟨e | c, s⟩
    · simp [hcall, Except.bind] at h
    · have hconclude : conclude input.toList c s = .ok v := by
        simpa [hcall, Except.bind] using h
      unfold conclude at hconclude
      split at hconclude
      · rename_i c hrest
        cases hconclude
        exact ⟨index, c, s, rfl, hcall, hrest, c.intoValue_eq_toValue⟩
      · cases hconclude

/-- A rule matches with a capture if a call of it does. -/
theorem matchRule_eq_ok {index maxDepth : Nat} {input : String} {c : Capture} {taken : Nat} :
    g.matchRule index maxDepth input = .ok (some (c, taken)) ↔
      ∃ s, Matching.Yields (callWithin g maxDepth maxDepth index) (.start input.toList g.start)
        (some c) s ∧ s.place.offset = taken := by
  change _ ↔ ∃ s, g.callFrom maxDepth index input.toList = (.ok (some c), s) ∧ _
  unfold matchRule matchRuleLogged
  rcases g.callFrom maxDepth index input.toList with ⟨e | _ | c', s⟩ <;>
    simp [Except.map, and_assoc]

/-- A rule that is matched without an outcome is ended by a fault. -/
theorem matchRule_eq_error {index maxDepth : Nat} {input : String} {e : RunError}
    (h : g.matchRule index maxDepth input = .error e) :
    Matching.Faults (callWithin g maxDepth maxDepth index) (.start input.toList g.start) e := by
  apply callFrom_faults
  unfold matchRule matchRuleLogged at h
  cases hcall : (g.callFrom maxDepth index input.toList).1 with
  | error e' =>
    have heq : e' = e := by simpa [hcall, Except.map] using h
    rw [heq]
  | ok c => simp [hcall, Except.map] at h

end TextGrammar.Grammar
