import TextGrammar.Proofs.Compile.Scopes
import TextGrammar.Proofs.Compile.Slots
import TextGrammar.Proofs.Matching.Reach

/-! # Bound sequences

While a rule is matched, each of its open sequences has bound the fields that it has passed. The
frame of the sequence holds their captures in the order of their slots, and the slots behind them
are empty. -/

namespace TextGrammar.Matching
open Compile (fieldNames isBound bound slotBehind Scope Lists Named ResolvesFields Pairs Within)

/-- The fields that a sequence has passed, each with what it captured. -/
abbrev Passed := List (Source.Field × Capture)

def passedFields (m : Passed) : List Source.Field := m.map Prod.fst

def kept (m : Passed) : List Capture := (m.filter fun entry => isBound entry.1).map Prod.snd

def captureOf? (m : Passed) (name : String) : Option Capture :=
  (m.find? fun entry => name ∈ fieldNames entry.1).map Prod.snd

/-- A frame holds what a sequence has bound so far. -/
def Holds (m : Passed) (frame : Action.Frame) : Prop :=
  ∃ free, frame = (kept m).map some ++ List.replicate free none

theorem passedFields_append (m more : Passed) :
    passedFields (m ++ more) = passedFields m ++ passedFields more := List.map_append

theorem kept_append (m more : Passed) : kept (m ++ more) = kept m ++ kept more := by
  simp [kept]

theorem length_kept (m : Passed) : (kept m).length = (bound (passedFields m)).length := by
  induction m with
  | nil => rfl
  | cons entry rest ih =>
    simp only [kept, bound, passedFields, List.length_map] at ih ⊢
    cases h : isBound entry.1 <;> simp [h, ih]

theorem holds_empty (slots : Nat) : Holds [] (List.replicate slots none) := ⟨slots, rfl⟩

/-- Passing a bound field fills its slot. -/
theorem Holds.fill {m : Passed} {frame : Action.Frame} {f : Source.Field} (h : Holds m frame)
    (hf : isBound f = true) (hroom : (kept m).length < frame.length) (c : Capture) :
    Holds (m ++ [(f, c)]) (frame.set (kept m).length (some c)) := by
  obtain ⟨free, rfl⟩ := h
  obtain ⟨free, rfl⟩ : ∃ k, free = k + 1 := by
    refine ⟨free - 1, ?_⟩
    simp only [List.length_append, List.length_map, List.length_replicate] at hroom
    omega
  have hkept : kept (m ++ [(f, c)]) = kept m ++ [c] := by
    rw [kept_append]
    simp [kept, hf]
  refine ⟨free, ?_⟩
  rw [hkept, List.set_append_right _ _ (by simp), List.length_map, Nat.sub_self,
    List.replicate_succ, List.set_cons_zero]
  simp

/-- Passing a field that is not bound leaves the frame as it is. -/
theorem Holds.skip {m : Passed} {frame : Action.Frame} {f : Source.Field} (h : Holds m frame)
    (hf : isBound f = false) (c : Capture) : Holds (m ++ [(f, c)]) frame := by
  obtain ⟨free, rfl⟩ := h
  refine ⟨free, ?_⟩
  rw [kept_append]
  simp [kept, hf]

theorem isBound_of_mem {f : Source.Field} {name : String} (h : name ∈ fieldNames f) :
    isBound f = true := by
  unfold isBound
  cases hnames : fieldNames f with
  | nil =>
    rw [hnames] at h
    cases h
  | cons => rfl

/-- The slot at which a scope finds a name holds the capture of the field of that name. -/
theorem captureOf?_eq {m : Passed} (name : String) :
    captureOf? m name =
      ((bound (passedFields m)).findIdx? fun f => name ∈ fieldNames f).bind fun slot =>
        (kept m)[slot]? := by
  induction m with
  | nil => rfl
  | cons entry rest ih =>
    obtain ⟨f, c⟩ := entry
    simp only [captureOf?, bound, passedFields, kept, List.map_cons] at ih ⊢
    by_cases hname : name ∈ fieldNames f
    · simp [hname, isBound_of_mem hname, List.findIdx?_cons]
    · cases hf : isBound f
      · simpa [hname, hf] using ih
      · simp only [List.filter_cons, hf, if_true, List.find?_cons, hname, decide_false,
          List.findIdx?_cons, Bool.false_eq_true, if_false, List.map_cons] at ih ⊢
        rw [ih, Option.bind_map]
        rfl

theorem Holds.getElem? {m : Passed} {frame : Action.Frame} (h : Holds m frame) {slot : Nat}
    {c : Capture} (hc : (kept m)[slot]? = some c) : frame[slot]? = some (some c) := by
  obtain ⟨free, rfl⟩ := h
  obtain ⟨hlt, -⟩ := List.getElem?_eq_some_iff.1 hc
  rw [List.getElem?_append_left (by simpa using hlt), List.getElem?_map, hc]
  rfl

/-- A name is found by the scope of a sequence exactly if it is the name of a passed field, and
then the slot has the capture of the field. -/
theorem Holds.lookup {m : Passed} {frame : Action.Frame} {scope : Scope} (h : Holds m frame)
    (hscope : Lists scope (passedFields m)) (name : String) :
    (captureOf? m name = none ∧ scope.lookup name = none) ∨
      ∃ c slot, captureOf? m name = some c ∧ scope.lookup name = some slot ∧
        frame[slot]? = some (some c) := by
  rw [captureOf?_eq, hscope name]
  cases hslot : (bound (passedFields m)).findIdx? fun f => name ∈ fieldNames f with
  | none => exact .inl ⟨rfl, rfl⟩
  | some slot =>
    have hlt : slot < (kept m).length := by
      rw [length_kept]
      exact (List.findIdx?_eq_some_iff_findIdx_eq.1 hslot).1
    have hc : (kept m)[slot]? = some (kept m)[slot] := List.getElem?_eq_getElem hlt
    exact .inr ⟨_, slot, hc, rfl, h.getElem? hc⟩

/-- Every named slot of the scopes of some sequences is filled in their frames. -/
theorem filled_of_named {passed : List Passed} {frames : List Action.Frame} {scopes : List Scope}
    (hframes : List.Forall₂ Holds passed frames)
    (hscopes : List.Forall₂ Lists scopes (passed.map passedFields)) {depth slot : Nat}
    (h : Named scopes depth slot) : Action.Filled frames depth slot := by
  obtain ⟨scope, name, hscope, hslot⟩ := h
  induction hframes generalizing scopes depth with
  | nil =>
    cases hscopes
    cases hscope
  | @cons m frame passed frames hholds _ ih =>
    cases hscopes with
    | cons hlists hrest =>
      cases depth with
      | zero =>
        cases hscope
        obtain ⟨-, hnone⟩ | ⟨c, other, -, hother, hfilled⟩ := hholds.lookup hlists name
        · rw [hslot] at hnone
          cases hnone
        · rw [hslot] at hother
          cases hother
          exact ⟨frame, c, rfl, hfilled⟩
      | succ depth =>
        obtain ⟨frame', c, hframe', hc⟩ := ih hrest hscope
        exact ⟨frame', c, hframe', hc⟩

end TextGrammar.Matching
