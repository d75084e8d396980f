import TextGrammar.Proofs.Matching.Parallel

/-! # Calls are isolated

A rule that is called depends on where it is called in the input and on how deep it is nested, and
on nothing else. So its actions cannot tell what its callers have captured. -/

namespace TextGrammar
open Matching (Place State exec call callWithin Parallel callWithin_parallel)

namespace Matching

theorem exec_call (g : Grammar) (limit index : Nat) (s : State) :
    exec (call g limit index) s = exec (callWithin g limit (limit - s.depth) index) s := rfl

/-- Calls at the same place and depth are parallel. -/
theorem call_parallel (g : Grammar) (limit index : Nat) {s t : State}
    (hplace : t.place = s.place) (hdepth : t.depth = s.depth) :
    Parallel (call g limit index) (call g limit index) t s := by
  have hparallel := callWithin_parallel g limit (limit - s.depth) index
    (s := t) (t := s) (by rw [hplace])
  refine ⟨?_, ?_⟩
  · rw [exec_call, exec_call, hdepth]
    exact hparallel.result
  · rw [exec_call, exec_call, hdepth]
    exact hparallel.strides

/-- Parallel runs from one place end at one place, and note the same failures. -/
theorem Parallel.same_place {α : Type} {m m' : Matcher α} {s t : State} (h : Parallel m m' s t)
    (hplace : s.place = t.place) :
    (exec m s).2.place = (exec m' t).2.place ∧
      ∃ reach, (exec m s).2.furthest = max s.furthest reach ∧
        (exec m' t).2.furthest = max t.furthest reach := by
  obtain ⟨-, hrest, hmoved, reach, reach', hreach, hs, ht⟩ := h
  rw [hplace] at hmoved hreach
  obtain rfl : reach = reach' := by omega
  refine ⟨?_, reach, hs, ht⟩
  have hoffset : (exec m s).2.place.offset = (exec m' t).2.place.offset := by omega
  rcases hu : (exec m s).2.place with ⟨offset, rest⟩
  rcases hv : (exec m' t).2.place with ⟨offset', rest'⟩
  rw [hu, hv] at hrest hoffset
  rw [Place.mk.injEq]
  exact ⟨hoffset, hrest⟩

end Matching

/-- Whatever the frames, the base, the rule, the furthest place and the log are in which a rule is
called: at the same place and depth it gives the same result, also an error with the same rule in
it, ends at the same place, and takes the furthest place to the same one if that is further. -/
theorem call_isolated (g : Grammar) (limit index : Nat) (s : State) :
    ∃ reach, ∀ t : State, t.place = s.place → t.depth = s.depth →
      (exec (call g limit index) t).1 = (exec (call g limit index) s).1 ∧
      (exec (call g limit index) t).2.place = (exec (call g limit index) s).2.place ∧
      (exec (call g limit index) t).2.furthest = max t.furthest reach := by
  -- The failures that are noted are read off a run that has noted none before.
  refine ⟨(exec (call g limit index) { s with furthest := 0 }).2.furthest, ?_⟩
  intro t hplace hdepth
  have hresult := Matching.call_parallel g limit index hplace hdepth
  have hfresh := Matching.call_parallel g limit index (s := { s with furthest := 0 }) hplace hdepth
  obtain ⟨-, reach, hreach, hreach'⟩ := hfresh.same_place hplace
  refine ⟨hresult.result, (hresult.same_place hplace).1, ?_⟩
  rw [hreach, hreach', Nat.max_eq_right (Nat.zero_le reach)]

def pryingGrammar : Grammar :=
  ⟨[⟨"prying", .action 0 [] 0 (.captured "secret" 1 0)⟩], 0, by decide⟩

def calledInside : State := ⟨⟨0, []⟩, 3, 0, [[some (.text "key")]], 0, 0, []⟩

theorem call_isolated_prying :
    calledInside.place = (State.start [] 0).place ∧ calledInside.depth = (State.start [] 0).depth ∧
      (exec (call pryingGrammar 1 0) calledInside).1 =
        .error (.action "prying" (.undefinedVariable "secret")) := by
  obtain ⟨reach, hall⟩ := call_isolated pryingGrammar 1 0 (.start [] 0)
  exact ⟨rfl, rfl, (hall calledInside rfl rfl).1⟩

end TextGrammar
