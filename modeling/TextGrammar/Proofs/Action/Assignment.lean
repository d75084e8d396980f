import TextGrammar.Proofs.Action.Visit

/-! # Definite assignment

Code is sound when every capture it names is known, every local it reads or assigns has been
declared on every way to it, and every slot it declares is one of the slots of the action. Sound
code that starts with its captures in place and no local assigned never misses anything. -/

namespace TextGrammar.Action

def declares : Stmt → List Nat
  | .bind _ slot _ => [slot]
  | _ => []

def declared (set : List Nat) : List Stmt → List Nat
  | [] => set
  | s :: rest => declared (declares s ++ set) rest

section
variable (known : Nat → Nat → Prop) (total : Nat)

mutual

def SoundExpr (set : List Nat) : Expr → Prop
  | .literal _ => True
  | .captured _ depth slot => known depth slot
  | .fetch _ slot => slot ∈ set
  | .index base position => SoundExpr set base ∧ SoundExpr set position
  | .field base _ => SoundExpr set base
  | .call _ arguments => SoundExprs set arguments
  | .binary _ lhs rhs => SoundExpr set lhs ∧ SoundExpr set rhs
  | .list items => SoundExprs set items
  | .record fields => SoundFields set fields
  | .block body => SoundBlock set body

def SoundExprs (set : List Nat) : List Expr → Prop
  | [] => True
  | e :: es => SoundExpr set e ∧ SoundExprs set es

def SoundFields (set : List Nat) : List (String × Expr) → Prop
  | [] => True
  | (_, e) :: rest => SoundExpr set e ∧ SoundFields set rest

def SoundResult (set : List Nat) : Option Expr → Prop
  | none => True
  | some e => SoundExpr set e

def SoundBlock (set : List Nat) : Block → Prop
  | .mk stmts result => SoundStmts set stmts ∧ SoundResult (declared set stmts) result

def SoundOtherwise (set : List Nat) : Option Block → Prop
  | none => True
  | some b => SoundBlock set b

def SoundStmts (set : List Nat) : List Stmt → Prop
  | [] => True
  | s :: rest => SoundStmt set s ∧ SoundStmts (declares s ++ set) rest

def SoundStmt (set : List Nat) : Stmt → Prop
  | .bind _ slot value => slot < total ∧ SoundExpr set value
  | .assign _ slot _ value => slot ∈ set ∧ SoundExpr set value
  | .loop _ slot start stop body =>
    slot < total ∧ SoundExpr set start ∧ SoundExpr set stop ∧ SoundBlock (slot :: set) body
  | .branch condition yes no =>
    SoundExpr set condition ∧ SoundBlock set yes ∧ SoundOtherwise set no
  | .leave => True

end

/-- A part of an evaluation is sound. -/
def SoundPart (set : List Nat) : Part → Prop
  | .expr e => SoundExpr known total set e
  | .exprs es => SoundExprs known total set es
  | .fields fields => SoundFields known total set fields
  | .result e => SoundResult known total set e
  | .all stmts | .stmts stmts => SoundStmts known total set stmts
  | .block b => SoundBlock known total set b
  | .otherwise b => SoundOtherwise known total set b
  | .stmt s => SoundStmt known total set s
  | .rounds _ slot body _ _ => slot < total ∧ SoundBlock known total (slot :: set) body
  | .store _ slot _ _ => slot ∈ set

/-- A part is sound where some slots are declared, and all of these have values. -/
def Ready (v : Visit) : Prop :=
  ∃ set, SoundPart known total set v.1 ∧ (∀ slot ∈ set, Assigned v.2 slot) ∧ v.2.length = total

end

section
variable {frames : List Frame} {L M : Locals}

theorem run_declares {s : Stmt} {flow : Flow} (h : Yields (run frames s) L flow M) :
    ∀ slot ∈ declares s, Assigned M slot := by
  cases s with
  | bind name slot value =>
    simp only [run, yields_bind, yields_pure, writeLocal_yields] at h
    obtain ⟨o, K, -, _, _, ⟨hlt, rfl⟩, -, rfl⟩ := h
    simp only [declares, List.mem_singleton, forall_eq]
    exact assigned_set hlt
  | assign | loop | branch | leave => simp [declares]

/-- A statement keeps the declared slots assigned, its own ones included. -/
theorem run_assigns {set : List Nat} {s : Stmt} {flow : Flow}
    (h : Yields (run frames s) L flow M) (hset : ∀ slot ∈ set, Assigned L slot) :
    ∀ slot ∈ declares s ++ set, Assigned M slot := by
  intro slot hslot
  rcases List.mem_append.1 hslot with hslot | hslot
  · exact run_declares h slot hslot
  · exact (run_grows frames s h).assigned slot (hset slot hslot)

theorem runAll_assigns {set : List Nat} {stmts : List Stmt}
    (h : Yields (runAll frames stmts) L () M) (hset : ∀ slot ∈ set, Assigned L slot) :
    ∀ slot ∈ declared set stmts, Assigned M slot := by
  induction stmts generalizing set L with
  | nil =>
    obtain ⟨-, rfl⟩ := yields_pure.1 h
    exact hset
  | cons s rest ih =>
    simp only [runAll, yields_bind] at h
    obtain ⟨flow, K, hs, hrest⟩ := h
    exact ih hrest (run_assigns hs hset)

theorem runStmts_assigns {set : List Nat} {stmts : List Stmt}
    (h : Yields (runStmts frames stmts) L .onward M) (hset : ∀ slot ∈ set, Assigned L slot) :
    ∀ slot ∈ declared set stmts, Assigned M slot := by
  induction stmts generalizing set L with
  | nil =>
    obtain ⟨-, rfl⟩ := yields_pure.1 h
    exact hset
  | cons s rest ih =>
    simp only [runStmts, yields_bind] at h
    obtain ⟨flow, K, hs, hrest⟩ := h
    cases flow with
    | left => cases (yields_pure.1 hrest).1
    | onward => exact ih hrest (run_assigns hs hset)

end

section
variable {known : Nat → Nat → Prop} {total : Nat} {frames : List Frame}

/-- A part whose locals extend those of the part before it is ready if it is sound. -/
theorem Ready.later {set : List Nat} {part : Part} {L M : Locals}
    (hset : ∀ slot ∈ set, Assigned L slot) (hlength : L.length = total) (hM : Extends M L)
    (hpart : SoundPart known total set part) : Ready known total (part, M) :=
  ⟨set, hpart, fun slot hslot => hM.assigned slot (hset slot hslot), hM.length.trans hlength⟩

theorem Leads.ready {v w : Visit} (h : Leads frames v w) (hv : Ready known total v) :
    Ready known total w := by
  obtain ⟨set, hsound, hset, hlength⟩ := hv
  have here : ∀ {part}, SoundPart known total set part → Ready known total (part, v.2) :=
    fun hpart => .later hset hlength (.refl _) hpart
  cases h with
  | position => exact here hsound.2
  | base ho => exact .later hset hlength (operand_grows frames _ ho) hsound.1
  | field => exact here hsound
  | argument => exact here hsound.1
  | lhs => exact here hsound.1
  | rhs ho => exact .later hset hlength (operand_grows frames _ ho) hsound.2
  | list => exact here hsound
  | record => exact here hsound
  | all => exact here hsound.1
  | allResult hstmts =>
    exact ⟨_, hsound.2, runAll_assigns hstmts hset,
      (runAll_grows frames _ hstmts).length.trans hlength⟩
  | item => exact here hsound.1
  | items ho => exact .later hset hlength (operand_grows frames _ ho) hsound.2
  | member => exact here hsound.1
  | members ho => exact .later hset hlength (operand_grows frames _ ho) hsound.2
  | result => exact here hsound
  | eachStmt => exact here hsound.1
  | eachRest hs =>
    exact ⟨_, hsound.2, run_assigns hs hset, (run_grows frames _ hs).length.trans hlength⟩
  | stmt => exact here hsound.1
  | stmts hs =>
    exact ⟨_, hsound.2, run_assigns hs hset, (run_grows frames _ hs).length.trans hlength⟩
  | block => exact here hsound.1
  | blockResult hstmts =>
    exact ⟨_, hsound.2, runStmts_assigns hstmts hset,
      (runStmts_grows frames _ hstmts).length.trans hlength⟩
  | otherwise => exact here hsound
  | initial => exact here hsound.2
  | assigned => exact here hsound.2
  | store ho => exact .later hset hlength (operand_grows frames _ ho) hsound.1
  | start => exact here hsound.2.1
  | stop ho => exact .later hset hlength (operand_grows frames _ ho) hsound.2.2.1
  | rounds ho _ hp _ =>
    exact .later hset hlength ((operand_grows frames _ hp).trans (operand_grows frames _ ho))
      ⟨hsound.1, hsound.2.2.2⟩
  | round hi =>
    obtain ⟨hlt, rfl⟩ := writeLocal_yields.1 hi
    refine ⟨_, hsound.2, fun slot hslot => ?_, by simpa using hlength⟩
    rcases List.mem_cons.1 hslot with rfl | hslot
    · exact assigned_set hlt
    · exact (extends_set _ _ _).assigned slot (hset slot hslot)
  | nextRound hi hbody =>
    exact .later hset hlength
      ((runBlock_grows frames _ hbody).trans (Grows.writeLocal _ _ _ hi)) hsound
  | condition => exact here hsound.1
  | yes ho _ => exact .later hset hlength (operand_grows frames _ ho) hsound.2.1
  | no ho _ => exact .later hset hlength (operand_grows frames _ ho) hsound.2.2

theorem Ready.provided (hknown : ∀ depth slot, known depth slot → Filled frames depth slot)
    {v : Visit} (hv : Ready known total v) : Provided frames v := by
  obtain ⟨set, hsound, hset, hlength⟩ := hv
  obtain ⟨part, L⟩ := v
  change L.length = total at hlength
  unfold Provided
  split
  · rename_i heq
    cases heq
    exact hknown _ _ hsound
  · rename_i heq
    cases heq
    exact hset _ hsound
  · rename_i heq
    cases heq
    exact hset _ hsound
  · rename_i heq
    cases heq
    exact hlength ▸ hsound.1
  · rename_i heq
    cases heq
    exact hlength ▸ hsound.1
  · trivial

/-- Everything that the evaluation of a sound body comes to is provided. -/
theorem visits_provided (hknown : ∀ depth slot, known depth slot → Filled frames depth slot)
    {body : Expr} (hbody : SoundExpr known total [] body) {v : Visit}
    (hv : Visits frames (.expr body, List.replicate total none) v) :
    Provided frames v ∧ v.2.length = total := by
  have hready : Ready known total v := by
    induction hv with
    | refl => exact ⟨[], hbody, nofun, List.length_replicate⟩
    | tail _ hvw ih => exact hvw.ready ih
  exact ⟨hready.provided hknown, hready.choose_spec.2.2⟩

/-- The evaluation of a sound body finds no variable undefined. -/
theorem evaluate_defined (hknown : ∀ depth slot, known depth slot → Filled frames depth slot)
    {body : Expr} (hbody : SoundExpr known total [] body) :
    Defined (evaluate total body frames) := by
  intro name h
  unfold evaluate at h
  cases hrun : (operand frames body).run (List.replicate total none) with
  | error fault =>
    rw [hrun] at h
    cases h
    obtain ⟨v, hv, hmiss⟩ := operand_blames body hrun
    exact hmiss (visits_provided hknown hbody hv).1
  | ok result =>
    rw [hrun] at h
    cases h

end

end TextGrammar.Action
