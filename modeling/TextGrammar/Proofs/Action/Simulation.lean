import TextGrammar.Proofs.Action.Reference
import TextGrammar.Proofs.Action.Variables

/-! # Slots hold what names mean

The locals of a resolved action and the open blocks of the reference hold the same values: each
declared name of an open block has a slot of its own with the value of that name. An evaluation by
slot simulates one by name if both keep this relation and have the same outcome. -/

namespace TextGrammar.Action
open Compile (Local slots)
open Reference (Scopes Reading)
variable {α β : Type}

/-- From related states, two computations fault in the same way, or yield the same result and
leave related states. -/
def Simulates (P : Locals → Scopes → Prop) (m : Evaluation α) (r : Reading α)
    (Q : α → Locals → Scopes → Prop) : Prop :=
  ∀ L E, P L E → (∃ fault, Faults m L fault ∧ Faults r E fault) ∨
    ∃ x M F, Yields m L x M ∧ Yields r E x F ∧ Q x M F

namespace Simulates
variable {P R : Locals → Scopes → Prop} {Q : α → Locals → Scopes → Prop}
  {S : β → Locals → Scopes → Prop} {m : Evaluation α} {r : Reading α}

theorem bind {f : α → Evaluation β} {g : α → Reading β} (h : Simulates P m r Q)
    (hf : ∀ x, Simulates (Q x) (f x) (g x) S) : Simulates P (m >>= f) (r >>= g) S := by
  intro L E hP
  obtain ⟨fault, hm, hr⟩ | ⟨x, M, F, hm, hr, hQ⟩ := h L E hP
  · exact .inl ⟨fault, faults_bind.2 (.inl hm), faults_bind.2 (.inl hr)⟩
  · obtain ⟨fault, hm', hr'⟩ | ⟨y, N, G, hm', hr', hS⟩ := hf x M F hQ
    · exact .inl ⟨fault, faults_bind.2 (.inr ⟨x, M, hm, hm'⟩),
        faults_bind.2 (.inr ⟨x, F, hr, hr'⟩)⟩
    · exact .inr ⟨y, N, G, yields_bind.2 ⟨x, M, hm, hm'⟩, yields_bind.2 ⟨x, F, hr, hr'⟩, hS⟩

theorem pure {x : α} (h : ∀ L E, P L E → Q x L E) : Simulates P (pure x) (pure x) Q :=
  fun L E hP => .inr ⟨x, L, E, yields_pure.2 ⟨rfl, rfl⟩, yields_pure.2 ⟨rfl, rfl⟩, h L E hP⟩

theorem throw {fault : Fault} : Simulates P (throw fault) (throw fault) Q :=
  fun _ _ _ => .inl ⟨fault, faults_throw.2 rfl, faults_throw.2 rfl⟩

theorem lift {m : Except Fault α} (h : ∀ x L E, m = .ok x → P L E → Q x L E) :
    Simulates P (liftM m) (liftM m) Q := by
  intro L E hP
  cases hm : m with
  | error fault => exact .inl ⟨fault, faults_lift.2 rfl, faults_lift.2 rfl⟩
  | ok x =>
    exact .inr ⟨x, L, E, yields_lift.2 ⟨rfl, rfl⟩, yields_lift.2 ⟨rfl, rfl⟩, h x L E hm hP⟩

theorem weaken {Q' : α → Locals → Scopes → Prop} (h : Simulates P m r Q)
    (hP : ∀ L E, R L E → P L E) (hQ : ∀ x L E, Q x L E → Q' x L E) : Simulates R m r Q' := by
  intro L E hR
  obtain hfault | ⟨x, M, F, hm, hr, hx⟩ := h L E (hP L E hR)
  · exact .inl hfault
  · exact .inr ⟨x, M, F, hm, hr, hQ x M F hx⟩

end Simulates

/-- The names declared in the open blocks, each with its local. -/
abbrev Declared := List (List (String × Local))

def SameLocal (L : Locals) (entry : String × Local) (named : String × Value) : Prop :=
  entry.1 = named.1 ∧ L[entry.2.slot]? = some (some named.2)

/-- All declared names have the same values by slot and by name, block by block. -/
def Mirrors (total : Nat) (blocks : Declared) (L : Locals) (E : Scopes) : Prop :=
  L.length = total ∧ List.Forall₂ (List.Forall₂ (SameLocal L)) blocks E

/-- No two declared names share a slot, and all slots are below the next one. -/
structure Fresh (blocks : Declared) (next : Nat) : Prop where
  nodup : (slots blocks.flatten).Nodup
  below : ∀ slot ∈ slots blocks.flatten, slot < next

theorem Fresh.mono {blocks : Declared} {n next : Nat} (h : Fresh blocks n) (hle : n ≤ next) :
    Fresh blocks next :=
  ⟨h.nodup, fun slot hslot => (h.below slot hslot).trans_le hle⟩

theorem Fresh.push {blocks : Declared} {next : Nat} (h : Fresh blocks next) :
    Fresh ([] :: blocks) next :=
  ⟨h.nodup, h.below⟩

theorem Fresh.declare {block : List (String × Local)} {outer : Declared} {next : Nat}
    (h : Fresh (block :: outer) next) (name : String) (mutable : Bool) :
    Fresh (((name, ⟨next, mutable⟩) :: block) :: outer) (next + 1) where
  nodup := List.nodup_cons.2 ⟨fun hmem => (h.below next hmem).false, h.nodup⟩
  below slot hslot := by
    rcases List.mem_cons.1 hslot with rfl | hslot
    · exact Nat.lt_succ_self _
    · exact Nat.lt_succ_of_lt (h.below slot hslot)

section
variable {L : Locals}

theorem lookup_sameLocal {block : List (String × Local)} {scope : List (String × Value)}
    (h : List.Forall₂ (SameLocal L) block scope) (name : String) :
    (block.lookup name = none ∧ scope.lookup name = none) ∨
      ∃ l v, block.lookup name = some l ∧ scope.lookup name = some v ∧
        L[l.slot]? = some (some v) := by
  induction h with
  | nil => exact .inl ⟨rfl, rfl⟩
  | @cons entry named _ _ hsame _ ih =>
    obtain ⟨hname, hvalue⟩ := hsame
    rw [List.lookup_cons, List.lookup_cons, ← hname]
    cases name == entry.1 with
    | true => exact .inr ⟨_, _, rfl, rfl, hvalue⟩
    | false => exact ih

/-- A name means the same local by slot and by name. -/
theorem lookup_mirrors {blocks : Declared} {E : Scopes}
    (h : List.Forall₂ (List.Forall₂ (SameLocal L)) blocks E) (name : String) :
    (blocks.flatten.lookup name = none ∧ Reference.localOf? E name = none) ∨
      ∃ l v, blocks.flatten.lookup name = some l ∧ Reference.localOf? E name = some v ∧
        L[l.slot]? = some (some v) := by
  induction h with
  | nil => exact .inl ⟨rfl, rfl⟩
  | cons hblock _ ih =>
    rw [List.flatten_cons, List.lookup_append, Reference.localOf?, List.findSome?_cons]
    obtain ⟨hnone, hnone'⟩ | ⟨l, v, hl, hv, hvalue⟩ := lookup_sameLocal hblock name
    · rw [hnone, hnone', Option.none_or]
      exact ih
    · rw [hl, hv, Option.some_or]
      exact .inr ⟨l, v, rfl, rfl, hvalue⟩

/-- Writing a slot that no declared name has changes none of them. -/
theorem SameLocal.set {entry : String × Local} {named : String × Value} {slot : Nat} {v : Value}
    (h : SameLocal L entry named) (hne : slot ≠ entry.2.slot) :
    SameLocal (L.set slot (some v)) entry named :=
  ⟨h.1, by rw [List.getElem?_set_ne hne]; exact h.2⟩

theorem sameLocals_set {block : List (String × Local)} {scope : List (String × Value)}
    {slot : Nat} {v : Value} (h : List.Forall₂ (SameLocal L) block scope)
    (hslot : slot ∉ slots block) : List.Forall₂ (SameLocal (L.set slot (some v))) block scope := by
  induction h with
  | nil => exact .nil
  | cons hsame _ ih =>
    rw [slots, List.map_cons, List.mem_cons, not_or] at hslot
    exact .cons (hsame.set hslot.1) (ih hslot.2)

theorem mirrors_set {blocks : Declared} {E : Scopes} {slot : Nat} {v : Value}
    (h : List.Forall₂ (List.Forall₂ (SameLocal L)) blocks E)
    (hslot : slot ∉ slots blocks.flatten) :
    List.Forall₂ (List.Forall₂ (SameLocal (L.set slot (some v)))) blocks E := by
  induction h with
  | nil => exact .nil
  | cons hblock _ ih =>
    rw [List.flatten_cons, slots, List.map_append, List.mem_append, not_or] at hslot
    exact .cons (sameLocals_set hblock hslot.1) (ih hslot.2)

/-- Assigning the name in its block is writing its slot. -/
theorem sameLocals_replace {block : List (String × Local)} {scope : List (String × Value)}
    {name : String} {l : Local} {v : Value} (h : List.Forall₂ (SameLocal L) block scope)
    (hnodup : (slots block).Nodup) (hl : block.lookup name = some l) (hlt : l.slot < L.length) :
    List.Forall₂ (SameLocal (L.set l.slot (some v))) block
      (Reference.replace name v scope) := by
  induction h with
  | nil => cases hl
  | @cons entry named block scope hsame hrest ih =>
    obtain ⟨hfresh, hnodup⟩ := List.nodup_cons.1 hnodup
    obtain ⟨hname, hvalue⟩ := hsame
    obtain ⟨other, w⟩ := named
    obtain rfl : entry.1 = other := hname
    rw [List.lookup_cons] at hl
    unfold Reference.replace
    by_cases heq : name = entry.1
    · have hbeq : (name == entry.1) = true := by simpa using heq
      rw [hbeq] at hl
      cases hl
      rw [if_pos heq]
      exact .cons ⟨rfl, by simp [hlt]⟩ (sameLocals_set hrest hfresh)
    · have hbeq : (name == entry.1) = false := by simpa using heq
      rw [hbeq] at hl
      rw [if_neg heq]
      have hne : l.slot ≠ entry.2.slot := by
        intro hslot
        have hmem := Compile.mem_slots_of_lookup hl
        rw [hslot] at hmem
        exact hfresh hmem
      exact .cons (SameLocal.set ⟨rfl, hvalue⟩ hne) (ih hnodup hl)

theorem mirrors_assign {blocks : Declared} {E : Scopes} {name : String} {l : Local} {v : Value}
    (h : List.Forall₂ (List.Forall₂ (SameLocal L)) blocks E)
    (hnodup : (slots blocks.flatten).Nodup) (hl : blocks.flatten.lookup name = some l)
    (hlt : l.slot < L.length) :
    List.Forall₂ (List.Forall₂ (SameLocal (L.set l.slot (some v)))) blocks
      (Reference.assign name v E) := by
  induction h with
  | nil => cases hl
  | @cons block scope blocks E hblock hrest ih =>
    rw [List.flatten_cons, List.lookup_append] at hl
    rw [List.flatten_cons, slots, List.map_append, List.nodup_append] at hnodup
    obtain ⟨hnodupBlock, hnodupRest, hapart⟩ := hnodup
    unfold Reference.assign
    obtain ⟨hnone, hnone'⟩ | ⟨m, w, hm, hw, -⟩ := lookup_sameLocal hblock name
    · rw [hnone, Option.none_or] at hl
      rw [hnone']
      refine .cons (sameLocals_set hblock fun hmem => ?_) (ih hnodupRest hl)
      exact hapart _ hmem _ (Compile.mem_slots_of_lookup hl) rfl
    · rw [hm, Option.some_or] at hl
      cases hl
      rw [hw]
      refine .cons (sameLocals_replace hblock hnodupBlock hm hlt) (mirrors_set hrest ?_)
      intro hmem
      exact hapart _ (Compile.mem_slots_of_lookup hm) _ hmem rfl

end

section
variable {total slot : Nat} {blocks outer : Declared} {block : List (String × Local)}
  {name : String} {l : Local}

/-- Reading a slot is reading the name that it belongs to. -/
theorem Simulates.read (hl : blocks.flatten.lookup name = some l) :
    Simulates (Mirrors total blocks) (readLocal name l.slot) (Reference.readLocal name)
      (fun _ => Mirrors total blocks) := by
  intro L E hmirrors
  obtain ⟨hnone, -⟩ | ⟨m, v, hm, hv, hvalue⟩ := lookup_mirrors hmirrors.2 name
  · rw [hl] at hnone
    cases hnone
  · rw [hl] at hm
    cases hm
    refine .inr ⟨v, L, E, readLocal_yields.2 ⟨hvalue, rfl⟩, ?_, hmirrors⟩
    exact yields_bind.2 ⟨E, E, yields_get.2 ⟨rfl, rfl⟩, by rw [hv]; exact yields_pure.2 ⟨rfl, rfl⟩⟩

/-- Writing the slot of a name is assigning the name. -/
theorem Simulates.assign (hl : blocks.flatten.lookup name = some l)
    (hnodup : (slots blocks.flatten).Nodup) (v : Value) :
    Simulates (Mirrors total blocks) (writeLocal name l.slot v) (Reference.writeLocal name v)
      (fun _ => Mirrors total blocks) := by
  intro L E hmirrors
  obtain ⟨hlength, hsame⟩ := hmirrors
  obtain ⟨hnone, -⟩ | ⟨m, w, hm, hw, hvalue⟩ := lookup_mirrors hsame name
  · rw [hl] at hnone
    cases hnone
  · rw [hl] at hm
    cases hm
    have hlt := (List.getElem?_eq_some_iff.1 hvalue).1
    refine .inr ⟨(), _, _, writeLocal_yields.2 ⟨hlt, rfl⟩, ?_, by simpa using hlength,
      mirrors_assign hsame hnodup hl hlt⟩
    refine yields_bind.2 ⟨E, E, yields_get.2 ⟨rfl, rfl⟩, ?_⟩
    rw [hw]
    exact yields_modify.2 rfl

/-- Writing a new slot is declaring its name. -/
theorem Simulates.declare (hfresh : Fresh (block :: outer) slot) (hlt : slot < total)
    (mutable : Bool) (v : Value) :
    Simulates (Mirrors total (block :: outer)) (writeLocal name slot v)
      (modify (Reference.declare name v))
      (fun _ => Mirrors total (((name, ⟨slot, mutable⟩) :: block) :: outer)) := by
  intro L E hmirrors
  obtain ⟨hlength, hsame⟩ := hmirrors
  have hnew : slot ∉ slots (block :: outer).flatten := fun hmem => (hfresh.below slot hmem).false
  have hset := mirrors_set (v := v) hsame hnew
  cases hset with
  | cons hblock houter =>
    refine .inr ⟨(), _, _, writeLocal_yields.2 ⟨hlength ▸ hlt, rfl⟩, yields_modify.2 rfl,
      by simpa using hlength, ?_⟩
    exact .cons (.cons ⟨rfl, by simp [hlength, hlt]⟩ hblock) houter

/-- What runs in a block of its own leaves the blocks around it. -/
theorem Simulates.inBlock {m : Evaluation α} {r : Reading α} {Q : α → Prop}
    (h : Simulates (Mirrors total ([] :: blocks)) m r
      (fun x L E => Q x ∧ ∃ inner, Mirrors total (inner :: blocks) L E)) :
    Simulates (Mirrors total blocks) m (Reference.inBlock r)
      (fun x L E => Q x ∧ Mirrors total blocks L E) := by
  intro L E hmirrors
  have hpush : Yields (modify ([] :: ·) : Reading Unit) E () ([] :: E) := yields_modify.2 rfl
  obtain ⟨fault, hm, hr⟩ | ⟨x, M, F, hm, hr, hQ, inner, hinner⟩ :=
    h L ([] :: E) ⟨hmirrors.1, .cons .nil hmirrors.2⟩
  · refine .inl ⟨fault, hm, ?_⟩
    exact faults_bind.2 (.inr ⟨(), _, hpush, faults_bind.2 (.inl hr)⟩)
  · obtain ⟨hlength, hsame⟩ := hinner
    cases hsame with
    | @cons _ scope _ outer _ houter =>
      refine .inr ⟨x, M, outer, hm, ?_, hQ, hlength, houter⟩
      refine yields_bind.2 ⟨(), _, hpush, yields_bind.2 ⟨x, _, hr, ?_⟩⟩
      exact yields_bind.2 ⟨(), _, yields_modify.2 rfl, yields_pure.2 ⟨rfl, rfl⟩⟩

end

theorem runAll_yields {frames : List Frame} {stmts : List Stmt} {L M : Locals}
    (h : Yields (runStmts frames stmts) L .onward M) : Yields (runAll frames stmts) L () M := by
  induction stmts generalizing L with
  | nil => exact yields_pure.2 ⟨rfl, (yields_pure.1 h).2⟩
  | cons s rest ih =>
    simp only [runStmts, yields_bind] at h
    obtain ⟨flow, K, hs, hrest⟩ := h
    cases flow with
    | left => cases (yields_pure.1 hrest).1
    | onward => exact yields_bind.2 ⟨_, K, hs, ih hrest⟩

theorem runAll_faults {frames : List Frame} {stmts : List Stmt} {L : Locals} {fault : Fault}
    (h : Faults (runStmts frames stmts) L fault) : Faults (runAll frames stmts) L fault := by
  induction stmts generalizing L with
  | nil => exact absurd h faults_pure
  | cons s rest ih =>
    simp only [runStmts, faults_bind] at h
    obtain hs | ⟨flow, K, hs, hrest⟩ := h
    · exact faults_bind.2 (.inl hs)
    · cases flow with
      | left => exact absurd hrest faults_pure
      | onward => exact faults_bind.2 (.inr ⟨_, K, hs, ih hrest⟩)

/-- Where no statement leaves a loop, running all of them is running them until one does. -/
theorem Simulates.bindAll {frames : List Frame} {stmts : List Stmt} {r : Reading Flow}
    {P : Locals → Scopes → Prop} {Q : Flow → Locals → Scopes → Prop}
    {S : α → Locals → Scopes → Prop} {f : Evaluation α} {g : Reading α}
    (h : Simulates P (runStmts frames stmts) r Q) (hleft : ∀ L E, ¬Q .left L E)
    (hf : Simulates (Q .onward) f g S) :
    Simulates P (runAll frames stmts >>= fun _ => f) (r >>= fun _ => g) S := by
  intro L E hP
  obtain ⟨fault, hm, hr⟩ | ⟨flow, M, F, hm, hr, hQ⟩ := h L E hP
  · exact .inl ⟨fault, faults_bind.2 (.inl (runAll_faults hm)), faults_bind.2 (.inl hr)⟩
  · cases flow with
    | left => exact absurd hQ (hleft M F)
    | onward =>
      obtain ⟨fault, hm', hr'⟩ | ⟨y, N, G, hm', hr', hS⟩ := hf M F hQ
      · exact .inl ⟨fault, faults_bind.2 (.inr ⟨(), M, runAll_yields hm, hm'⟩),
          faults_bind.2 (.inr ⟨_, F, hr, hr'⟩)⟩
      · exact .inr ⟨y, N, G, yields_bind.2 ⟨(), M, runAll_yields hm, hm'⟩,
          yields_bind.2 ⟨_, F, hr, hr'⟩, hS⟩

end TextGrammar.Action
