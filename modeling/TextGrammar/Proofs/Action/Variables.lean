import TextGrammar.Action.Evaluation
import TextGrammar.Proofs.Computation

/-! # Reading and writing variables

A capture is read if it is in its frame, a local is read if it has a value, and written if it is
one of the locals. All else is an undefined variable. -/

namespace TextGrammar.Action

def Assigned (L : Locals) (slot : Nat) : Prop := ∃ v, L[slot]? = some (some v)

def Filled (frames : List Frame) (depth slot : Nat) : Prop :=
  ∃ frame c, frames[depth]? = some frame ∧ frame[slot]? = some (some c)

theorem captureAt_eq_error {frames : List Frame} {name : String} {depth slot : Nat}
    {fault : Fault} (h : captureAt frames name depth slot = .error fault) :
    fault = .undefinedVariable name ∧ ¬Filled frames depth slot := by
  unfold captureAt at h
  split at h
  · rename_i frame hframe
    split at h
    · cases h
    · rename_i hslot
      cases h
      refine ⟨rfl, ?_⟩
      rintro ⟨frame', c, hframe', hc⟩
      rw [hframe] at hframe'
      cases hframe'
      exact hslot c hc
  · rename_i hframe
    cases h
    refine ⟨rfl, ?_⟩
    rintro ⟨frame', c, hframe', -⟩
    rw [hframe] at hframe'
    cases hframe'

theorem captureAt_eq_ok {frames : List Frame} {name : String} {depth slot : Nat} {c : Capture} :
    captureAt frames name depth slot = .ok c ↔
      ∃ frame, frames[depth]? = some frame ∧ frame[slot]? = some (some c) := by
  unfold captureAt
  split
  · rename_i frame hframe
    split
    · rename_i d hd
      simp [hframe, hd]
    · rename_i hslot
      simp only [hframe, reduceCtorEq, Option.some.injEq, exists_eq_left', false_iff]
      exact hslot c
  · rename_i hframe
    simp [hframe]

theorem readLocal_yields {name : String} {slot : Nat} {L M : Locals} {v : Value} :
    Yields (readLocal name slot) L v M ↔ L[slot]? = some (some v) ∧ L = M := by
  change readLocal name slot L = .ok (v, M) ↔ _
  unfold readLocal
  split
  · rename_i w hw
    simp [hw]
  · rename_i hslot
    simp only [reduceCtorEq, false_iff, not_and]
    exact fun hv => absurd hv (hslot v)

theorem readLocal_faults {name : String} {slot : Nat} {L : Locals} {fault : Fault}
    (h : Faults (readLocal name slot) L fault) :
    fault = .undefinedVariable name ∧ ¬Assigned L slot := by
  change readLocal name slot L = .error fault at h
  unfold readLocal at h
  split at h
  · cases h
  · rename_i hslot
    cases h
    refine ⟨rfl, ?_⟩
    rintro ⟨v, hv⟩
    exact hslot v hv

theorem writeLocal_yields {name : String} {slot : Nat} {v : Value} {L M : Locals} {u : Unit} :
    Yields (writeLocal name slot v) L u M ↔ slot < L.length ∧ M = L.set slot (some v) := by
  change writeLocal name slot v L = .ok (u, M) ↔ _
  unfold writeLocal
  split
  · rename_i hlt
    simp [hlt, eq_comm]
  · rename_i hlt
    simp [hlt]

theorem writeLocal_faults {name : String} {slot : Nat} {v : Value} {L : Locals} {fault : Fault}
    (h : Faults (writeLocal name slot v) L fault) :
    fault = .undefinedVariable name ∧ ¬slot < L.length := by
  change writeLocal name slot v L = .error fault at h
  unfold writeLocal at h
  split at h
  · cases h
  · rename_i hlt
    cases h
    exact ⟨rfl, hlt⟩

end TextGrammar.Action
