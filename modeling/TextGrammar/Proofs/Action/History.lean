import Mathlib.Data.List.Forall2
import TextGrammar.Proofs.Action.Visit

/-! # Histories of evaluations

The parts that a part leads to are run one after the other, each with all that it leads to in
turn. A history lists the parts in this order, and has all those that the evaluation comes to. -/

namespace TextGrammar.Action
variable {α : Type}

def after (m : Evaluation α) (L : Locals) (next : α → Locals → List Visit) : List Visit :=
  match m.run L with
  | .ok (x, M) => next x M
  | .error _ => []

theorem after_of_yields {m : Evaluation α} {L M : Locals} {x : α} (h : Yields m L x M)
    (next : α → Locals → List Visit) : after m L next = next x M := by
  have hrun : m.run L = .ok (x, M) := h
  rw [after, hrun]

theorem mem_after {m : Evaluation α} {L : Locals} {next : α → Locals → List Visit} {w : Visit} :
    w ∈ after m L next ↔ ∃ x M, Yields m L x M ∧ w ∈ next x M := by
  unfold after
  split
  · rename_i x M hrun
    constructor
    · exact fun h => ⟨x, M, hrun, h⟩
    · rintro ⟨y, N, hy, hw⟩
      cases hrun.symm.trans hy
      exact hw
  · rename_i fault hrun
    constructor
    · exact fun h => absurd h List.not_mem_nil
    · rintro ⟨y, N, hy, -⟩
      cases hrun.symm.trans hy

section
variable (frames : List Frame)

/-- The parts that a part leads to, in the order in which they are run. -/
def steps : Visit → List Visit
  | (.expr (.index base position), L) =>
    (.expr position, L) :: after (operand frames position) L fun _ M => [(.expr base, M)]
  | (.expr (.field base _), L) => [(.expr base, L)]
  | (.expr (.call _ [argument]), L) => [(.expr argument, L)]
  | (.expr (.binary _ lhs rhs), L) =>
    (.expr lhs, L) :: after (operand frames lhs) L fun _ M => [(.expr rhs, M)]
  | (.expr (.list items), L) => [(.exprs items, L)]
  | (.expr (.record fields), L) => [(.fields fields, L)]
  | (.expr (.block (.mk stmts result)), L) =>
    (.all stmts, L) :: after (runAll frames stmts) L fun _ M => [(.result result, M)]
  | (.exprs (e :: es), L) =>
    (.expr e, L) :: after (operand frames e) L fun _ M => [(.exprs es, M)]
  | (.fields ((_, e) :: rest), L) =>
    (.expr e, L) :: after (operand frames e) L fun _ M => [(.fields rest, M)]
  | (.result (some e), L) => [(.expr e, L)]
  | (.all (s :: rest), L) =>
    (.stmt s, L) :: after (run frames s) L fun _ M => [(.all rest, M)]
  | (.stmts (s :: rest), L) =>
    (.stmt s, L) :: after (run frames s) L fun flow M =>
      match flow with
      | .left => []
      | .onward => [(.stmts rest, M)]
  | (.block (.mk stmts result), L) =>
    (.stmts stmts, L) :: after (runStmts frames stmts) L fun flow M =>
      match flow with
      | .left => []
      | .onward => [(.result result, M)]
  | (.otherwise (some b), L) => [(.block b, L)]
  | (.stmt (.bind _ _ value), L) => [(.expr value, L)]
  | (.stmt (.assign name slot mode value), L) =>
    (.expr value, L) :: after (operand frames value) L fun o M =>
      [(.store name slot mode o.toValue, M)]
  | (.stmt (.loop name slot start stop body), L) =>
    (.expr start, L) :: after (operand frames start) L fun o M =>
      (.expr stop, M) :: after (operand frames stop) M fun p N =>
        match asInteger o, asInteger p with
        | .ok m, .ok n => [(.rounds name slot body (n.toInt - m.toInt).toNat m.toInt, N)]
        | _, _ => []
  | (.stmt (.branch condition yes no), L) =>
    (.expr condition, L) :: after (operand frames condition) L fun o M =>
      match o.toValue with
      | .bool true => [(.block yes, M)]
      | .bool false => [(.otherwise no, M)]
      | _ => []
  | (.rounds name slot body (count + 1) i, L) =>
    after (writeLocal name slot (.int (Int64.ofInt i))) L fun _ M =>
      (.block body, M) :: after (runBlock frames body) M fun flow N =>
        match flow with
        | .left => []
        | .onward => [(.rounds name slot body count (i + 1), N)]
  | _ => []

/-- The parts that are run, one after the other, from some parts that are to be run. -/
inductive History : List Visit → List Visit → Prop
  | done : History [] []
  | visit {v : Visit} {rest trace : List Visit} (h : History (steps frames v ++ rest) trace) :
    History (v :: rest) (v :: trace)

end

section
variable {frames : List Frame} {v w : Visit} {vs ws s t : List Visit}

theorem forall_mem_after {m : Evaluation α} {L : Locals} {next : α → Locals → List Visit}
    {P : Visit → Prop} :
    (∀ w ∈ after m L next, P w) ↔ ∀ x M, Yields m L x M → ∀ w ∈ next x M, P w := by
  simp only [mem_after]
  constructor
  · intro h x M hx w hw
    exact h w ⟨x, M, hx, hw⟩
  · rintro h w ⟨x, M, hx, hw⟩
    exact h x M hx w hw

/-- Behind a statement or a block there is something to run only if it does not leave its loop. -/
theorem forall_mem_onward {flow : Flow} {P : Visit → Prop} :
    (∀ w ∈ (match flow with
      | .left => []
      | .onward => [v] : List Visit), P w) ↔ (flow = .onward → P v) := by
  cases flow with
  | left => exact ⟨nofun, nofun⟩
  | onward =>
    rw [List.forall_mem_singleton]
    exact ⟨fun h _ => h, fun h => h rfl⟩

/-- The steps of a part are the parts that it leads to. -/
theorem leads_of_mem_steps : ∀ w ∈ steps frames v, Leads frames v w := by
  unfold steps
  split <;>
    simp only [List.forall_mem_singleton, List.forall_mem_cons, List.not_mem_nil, false_imp_iff,
      implies_true, forall_mem_after, forall_mem_onward]
  case h_1 => exact ⟨.position, fun _ _ ho => .base ho⟩
  case h_2 => exact .field
  case h_3 => exact .argument
  case h_4 => exact ⟨.lhs, fun _ _ ho => .rhs ho⟩
  case h_5 => exact .list
  case h_6 => exact .record
  case h_7 => exact ⟨.all, fun _ _ hstmts => .allResult hstmts⟩
  case h_8 => exact ⟨.item, fun _ _ ho => .items ho⟩
  case h_9 => exact ⟨.member, fun _ _ ho => .members ho⟩
  case h_10 => exact .result
  case h_11 => exact ⟨.eachStmt, fun _ _ hs => .eachRest hs⟩
  case h_12 =>
    refine ⟨.stmt, ?_⟩
    rintro _ M hs rfl
    exact .stmts hs
  case h_13 =>
    refine ⟨.block, ?_⟩
    rintro _ M hstmts rfl
    exact .blockResult hstmts
  case h_14 => exact .otherwise
  case h_15 => exact .initial
  case h_16 => exact ⟨.assigned, fun _ _ ho => .store ho⟩
  case h_17 =>
    refine ⟨.start, fun o M ho => ⟨.stop ho, fun p N hp => ?_⟩⟩
    split
    · rename_i m n hm hn
      exact List.forall_mem_singleton.2 (.rounds ho hm hp hn)
    · exact List.forall_mem_nil _
  case h_18 =>
    refine ⟨.condition, fun o M ho => ?_⟩
    split
    · rename_i hvalue
      exact List.forall_mem_singleton.2 (.yes ho hvalue)
    · rename_i hvalue
      exact List.forall_mem_singleton.2 (.no ho hvalue)
    · exact List.forall_mem_nil _
  case h_19 =>
    intro _ M hi
    refine ⟨.round hi, ?_⟩
    rintro _ N hbody rfl
    exact .nextRound hi hbody

theorem mem_steps_of_leads (h : Leads frames v w) : w ∈ steps frames v := by
  cases h with
  | position | field | argument | lhs | list | record | all | item | member | result | eachStmt
  | stmt | block | otherwise | initial | assigned | start | condition => exact List.mem_cons_self
  | base ho | rhs ho | items ho | members ho | store ho =>
    exact List.mem_cons_of_mem _ (mem_after.2 ⟨_, _, ho, List.mem_cons_self⟩)
  | allResult hs | eachRest hs | stmts hs | blockResult hs =>
    exact List.mem_cons_of_mem _ (mem_after.2 ⟨_, _, hs, List.mem_cons_self⟩)
  | stop ho => exact List.mem_cons_of_mem _ (mem_after.2 ⟨_, _, ho, List.mem_cons_self⟩)
  | rounds ho hm hp hn =>
    refine List.mem_cons_of_mem _ (mem_after.2 ⟨_, _, ho, List.mem_cons_of_mem _ ?_⟩)
    refine mem_after.2 ⟨_, _, hp, ?_⟩
    rw [hm, hn]
    exact List.mem_cons_self
  | round hi => exact mem_after.2 ⟨_, _, hi, List.mem_cons_self⟩
  | nextRound hi hbody =>
    exact mem_after.2 ⟨_, _, hi, List.mem_cons_of_mem _
      (mem_after.2 ⟨_, _, hbody, List.mem_cons_self⟩)⟩
  | yes ho h | no ho h =>
    refine List.mem_cons_of_mem _ (mem_after.2 ⟨_, _, ho, ?_⟩)
    rw [h]
    exact List.mem_cons_self

namespace History

theorem append (hs : History frames vs s) (ht : History frames ws t) :
    History frames (vs ++ ws) (s ++ t) := by
  induction hs with
  | done => exact ht
  | @visit v rest trace _ ih =>
    rw [List.append_assoc] at ih
    exact .visit ih

/-- A part is run before its steps. -/
theorem of_steps (h : History frames (steps frames v) t) : History frames [v] (v :: t) :=
  .visit (by rwa [List.append_nil])

/-- Parts that are run one after the other. -/
theorem flatten {traces : List (List Visit)}
    (h : List.Forall₂ (fun v t => History frames [v] t) vs traces) :
    History frames vs traces.flatten := by
  induction h with
  | nil => exact .done
  | cons hv _ ih => exact hv.append ih

/-- What is run is what the parts to be run come to, and nothing else. -/
theorem mem_iff (h : History frames vs t) : w ∈ t ↔ ∃ v ∈ vs, Visits frames v w := by
  induction h with
  | done => simp
  | @visit v rest trace _ ih =>
    have hhead : Visits frames v w ↔ w = v ∨ ∃ u ∈ steps frames v, Visits frames u w := by
      constructor
      · intro hv
        obtain rfl | ⟨u, hu, hw⟩ := Relation.ReflTransGen.cases_head hv
        · exact .inl rfl
        · exact .inr ⟨u, mem_steps_of_leads hu, hw⟩
      · rintro (rfl | ⟨u, hu, hw⟩)
        · exact .refl
        · exact .head (leads_of_mem_steps u hu) hw
    simp only [List.mem_cons, List.mem_append, ih, or_and_right, exists_or, exists_eq_left, hhead,
      or_assoc]

end History

end

end TextGrammar.Action
