import Mathlib.Logic.Relation
import TextGrammar.Proofs.Action.Defined
import TextGrammar.Proofs.Action.Growth

/-! # The parts that an evaluation comes to

Evaluating an expression leads to evaluating its parts, each with the locals that the parts
before it leave. An evaluation finds a variable undefined only at a part that reads or writes
what is not there. -/

namespace TextGrammar.Action

/-- What an evaluation is busy with: expressions, the remaining statements of an expression or of
a block that a loop may run, the remaining rounds of a loop, or an assignment whose value is
known. -/
inductive Part where
  | expr (e : Expr)
  | exprs (es : List Expr)
  | fields (fields : List (String × Expr))
  | result (e : Option Expr)
  | all (stmts : List Stmt)
  | stmts (stmts : List Stmt)
  | block (b : Block)
  | otherwise (b : Option Block)
  | stmt (s : Stmt)
  | rounds (name : String) (slot : Nat) (body : Block) (count : Nat) (i : Int)
  | store (name : String) (slot : Nat) (mode : AssignMode) (v : Value)

abbrev Visit := Part × Locals

section
variable (frames : List Frame)

/-- One part leads to another one directly. -/
inductive Leads : Visit → Visit → Prop
  | position {base position : Expr} {L : Locals} :
    Leads (.expr (.index base position), L) (.expr position, L)
  | base {base position : Expr} {L M : Locals} {o : Operand}
    (ho : Yields (operand frames position) L o M) :
    Leads (.expr (.index base position), L) (.expr base, M)
  | field {base : Expr} {name : String} {L : Locals} :
    Leads (.expr (.field base name), L) (.expr base, L)
  | argument {callee : String} {argument : Expr} {L : Locals} :
    Leads (.expr (.call callee [argument]), L) (.expr argument, L)
  | lhs {op : Operator} {lhs rhs : Expr} {L : Locals} :
    Leads (.expr (.binary op lhs rhs), L) (.expr lhs, L)
  | rhs {op : Operator} {lhs rhs : Expr} {L M : Locals} {o : Operand}
    (ho : Yields (operand frames lhs) L o M) :
    Leads (.expr (.binary op lhs rhs), L) (.expr rhs, M)
  | list {items : List Expr} {L : Locals} : Leads (.expr (.list items), L) (.exprs items, L)
  | record {fields : List (String × Expr)} {L : Locals} :
    Leads (.expr (.record fields), L) (.fields fields, L)
  | all {stmts : List Stmt} {result : Option Expr} {L : Locals} :
    Leads (.expr (.block (.mk stmts result)), L) (.all stmts, L)
  | allResult {stmts : List Stmt} {result : Option Expr} {L M : Locals}
    (hstmts : Yields (runAll frames stmts) L () M) :
    Leads (.expr (.block (.mk stmts result)), L) (.result result, M)
  | item {e : Expr} {es : List Expr} {L : Locals} : Leads (.exprs (e :: es), L) (.expr e, L)
  | items {e : Expr} {es : List Expr} {L M : Locals} {o : Operand}
    (ho : Yields (operand frames e) L o M) : Leads (.exprs (e :: es), L) (.exprs es, M)
  | member {name : String} {e : Expr} {rest : List (String × Expr)} {L : Locals} :
    Leads (.fields ((name, e) :: rest), L) (.expr e, L)
  | members {name : String} {e : Expr} {rest : List (String × Expr)} {L M : Locals} {o : Operand}
    (ho : Yields (operand frames e) L o M) :
    Leads (.fields ((name, e) :: rest), L) (.fields rest, M)
  | result {e : Expr} {L : Locals} : Leads (.result (some e), L) (.expr e, L)
  | eachStmt {s : Stmt} {rest : List Stmt} {L : Locals} : Leads (.all (s :: rest), L) (.stmt s, L)
  | eachRest {s : Stmt} {rest : List Stmt} {L M : Locals} {flow : Flow}
    (hs : Yields (run frames s) L flow M) : Leads (.all (s :: rest), L) (.all rest, M)
  | stmt {s : Stmt} {rest : List Stmt} {L : Locals} : Leads (.stmts (s :: rest), L) (.stmt s, L)
  | stmts {s : Stmt} {rest : List Stmt} {L M : Locals}
    (hs : Yields (run frames s) L .onward M) : Leads (.stmts (s :: rest), L) (.stmts rest, M)
  | block {stmts : List Stmt} {result : Option Expr} {L : Locals} :
    Leads (.block (.mk stmts result), L) (.stmts stmts, L)
  | blockResult {stmts : List Stmt} {result : Option Expr} {L M : Locals}
    (hstmts : Yields (runStmts frames stmts) L .onward M) :
    Leads (.block (.mk stmts result), L) (.result result, M)
  | otherwise {b : Block} {L : Locals} : Leads (.otherwise (some b), L) (.block b, L)
  | initial {name : String} {slot : Nat} {value : Expr} {L : Locals} :
    Leads (.stmt (.bind name slot value), L) (.expr value, L)
  | assigned {name : String} {slot : Nat} {mode : AssignMode} {value : Expr} {L : Locals} :
    Leads (.stmt (.assign name slot mode value), L) (.expr value, L)
  | store {name : String} {slot : Nat} {mode : AssignMode} {value : Expr} {L M : Locals}
    {o : Operand} (ho : Yields (operand frames value) L o M) :
    Leads (.stmt (.assign name slot mode value), L) (.store name slot mode o.toValue, M)
  | start {name : String} {slot : Nat} {start stop : Expr} {body : Block} {L : Locals} :
    Leads (.stmt (.loop name slot start stop body), L) (.expr start, L)
  | stop {name : String} {slot : Nat} {start stop : Expr} {body : Block} {L M : Locals}
    {o : Operand} (ho : Yields (operand frames start) L o M) :
    Leads (.stmt (.loop name slot start stop body), L) (.expr stop, M)
  | rounds {name : String} {slot : Nat} {start stop : Expr} {body : Block} {L M N : Locals}
    {o p : Operand} {m n : Int64} (ho : Yields (operand frames start) L o M)
    (hm : asInteger o = .ok m) (hp : Yields (operand frames stop) M p N)
    (hn : asInteger p = .ok n) :
    Leads (.stmt (.loop name slot start stop body), L)
      (.rounds name slot body (n.toInt - m.toInt).toNat m.toInt, N)
  | round {name : String} {slot : Nat} {body : Block} {count : Nat} {i : Int} {L M : Locals}
    (hi : Yields (writeLocal name slot (.int (Int64.ofInt i))) L () M) :
    Leads (.rounds name slot body (count + 1) i, L) (.block body, M)
  | nextRound {name : String} {slot : Nat} {body : Block} {count : Nat} {i : Int}
    {L M N : Locals} (hi : Yields (writeLocal name slot (.int (Int64.ofInt i))) L () M)
    (hbody : Yields (runBlock frames body) M .onward N) :
    Leads (.rounds name slot body (count + 1) i, L) (.rounds name slot body count (i + 1), N)
  | condition {condition : Expr} {yes : Block} {no : Option Block} {L : Locals} :
    Leads (.stmt (.branch condition yes no), L) (.expr condition, L)
  | yes {condition : Expr} {yes : Block} {no : Option Block} {L M : Locals} {o : Operand}
    (ho : Yields (operand frames condition) L o M) (h : o.toValue = .bool true) :
    Leads (.stmt (.branch condition yes no), L) (.block yes, M)
  | no {condition : Expr} {yes : Block} {no : Option Block} {L M : Locals} {o : Operand}
    (ho : Yields (operand frames condition) L o M) (h : o.toValue = .bool false) :
    Leads (.stmt (.branch condition yes no), L) (.otherwise no, M)

/-- One part leads to another one in some steps. -/
def Visits : Visit → Visit → Prop := Relation.ReflTransGen (Leads frames)

/-- What a part reads or writes by itself is there: a capture in the slot of a frame, a local
with a value, and for an assignment a local that has a value already. -/
def Provided : Visit → Prop
  | (.expr (.captured _ depth slot), _) => Filled frames depth slot
  | (.expr (.fetch _ slot), L) => Assigned L slot
  | (.store _ slot _ _, L) => Assigned L slot
  | (.stmt (.bind _ slot _), L) => slot < L.length
  | (.rounds _ slot _ _ _, L) => slot < L.length
  | _ => True

/-- A part comes to one that does not find what it reads or writes. -/
def Misses (v : Visit) : Prop := ∃ w, Visits frames v w ∧ ¬Provided frames w

end

variable {frames : List Frame}

theorem Misses.of_leads {v w : Visit} (hvw : Leads frames v w) (h : Misses frames w) :
    Misses frames v := by
  obtain ⟨u, hwu, hu⟩ := h
  exact ⟨u, .head hvw hwu, hu⟩

theorem Misses.of_not_provided {v : Visit} (h : ¬Provided frames v) : Misses frames v :=
  ⟨v, .refl, h⟩

/-- An evaluation that finds a variable undefined misses something on its way. -/
def Blames (frames : List Frame) {α : Type} (m : Evaluation α) (part : Part) : Prop :=
  ∀ ⦃L : Locals⦄ ⦃name : String⦄, Faults m L (.undefinedVariable name) → Misses frames (part, L)

theorem runLoop_blames {name : String} {slot : Nat} {body : Block}
    (hbody : Blames frames (runBlock frames body) (.block body)) (count : Nat) (i : Int) :
    Blames frames (runLoop name slot (runBlock frames body) count i)
      (.rounds name slot body count i) := by
  induction count generalizing i with
  | zero => exact fun _ _ h => absurd h faults_pure
  | succ count ih =>
    intro L x h
    simp only [runLoop, faults_bind] at h
    obtain hwrite | ⟨_, M, hwrite, hrun | ⟨flow, N, hrun, hrest⟩⟩ := h
    · exact .of_not_provided (writeLocal_faults hwrite).2
    · exact .of_leads (.round hwrite) (hbody hrun)
    · cases flow with
      | left => exact absurd hrest faults_pure
      | onward => exact .of_leads (.nextRound hwrite hrun) (ih (i + 1) hrest)

mutual

theorem operand_blames : ∀ e : Expr, Blames frames (operand frames e) (.expr e)
  | .literal _, _, _, h => absurd h faults_pure
  | .captured name depth slot, L, _, h => by
    simp only [operand, faults_bind, faults_lift, faults_pure, and_false, exists_false,
      or_false] at h
    exact .of_not_provided (captureAt_eq_error h).2
  | .fetch name slot, L, _, h => by
    simp only [operand, faults_bind, faults_pure, and_false, exists_false, or_false] at h
    exact .of_not_provided (readLocal_faults h).2
  | .index base position, L, x, h => by
    simp only [operand, faults_bind, faults_lift] at h
    obtain h | ⟨p, M, hp, h | ⟨b, N, hb, h⟩⟩ := h
    · exact .of_leads .position (operand_blames position h)
    · exact .of_leads (.base hp) (operand_blames base h)
    · exact absurd h (index_defined b p.toValue x)
  | .field base name, L, x, h => by
    simp only [operand, faults_bind, faults_lift] at h
    obtain h | ⟨b, M, hb, h⟩ := h
    · exact .of_leads .field (operand_blames base h)
    · exact absurd h (field_defined b name x)
  | .call callee arguments, L, x, h => by
    unfold operand at h
    split at h
    · exact absurd (faults_throw.1 h) nofun
    · rename_i builtin _
      split at h
      · rename_i argument
        simp only [faults_bind, faults_lift, faults_pure, and_false, exists_false,
          or_false] at h
        obtain h | ⟨o, M, ho, h⟩ := h
        · exact .of_leads .argument (operand_blames argument h)
        · exact absurd h (apply_defined builtin o x)
      · exact absurd (faults_throw.1 h) nofun
  | .binary op lhs rhs, L, x, h => by
    simp only [operand, faults_bind, faults_lift, faults_pure, and_false, exists_false,
      or_false] at h
    obtain h | ⟨a, M, ha, h | ⟨b, N, hb, h⟩⟩ := h
    · exact .of_leads .lhs (operand_blames lhs h)
    · exact .of_leads (.rhs ha) (operand_blames rhs h)
    · exact absurd h (binary_defined op a.toValue b.toValue x)
  | .list items, L, _, h => by
    simp only [operand, faults_bind, faults_pure, and_false, exists_false, or_false] at h
    exact .of_leads .list (values_blames items h)
  | .record fields, L, _, h => by
    simp only [operand, faults_bind, faults_pure, and_false, exists_false, or_false] at h
    exact .of_leads .record (fieldValues_blames fields h)
  | .block (.mk stmts result), L, _, h => by
    simp only [operand, faults_bind, faults_pure, and_false, exists_false, or_false] at h
    obtain h | ⟨_, M, hstmts, h⟩ := h
    · exact .of_leads .all (runAll_blames stmts h)
    · exact .of_leads (.allResult hstmts) (resultValue_blames result h)

theorem values_blames : ∀ es : List Expr, Blames frames (values frames es) (.exprs es)
  | [], _, _, h => absurd h faults_pure
  | e :: es, L, _, h => by
    simp only [values, faults_bind, faults_pure, and_false, exists_false, or_false] at h
    obtain h | ⟨o, M, ho, h⟩ := h
    · exact .of_leads .item (operand_blames e h)
    · exact .of_leads (.items ho) (values_blames es h)

theorem fieldValues_blames :
    ∀ fields : List (String × Expr), Blames frames (fieldValues frames fields) (.fields fields)
  | [], _, _, h => absurd h faults_pure
  | (_, e) :: rest, L, _, h => by
    simp only [fieldValues, faults_bind, faults_pure, and_false, exists_false, or_false] at h
    obtain h | ⟨o, M, ho, h⟩ := h
    · exact .of_leads .member (operand_blames e h)
    · exact .of_leads (.members ho) (fieldValues_blames rest h)

theorem resultValue_blames :
    ∀ e : Option Expr, Blames frames (resultValue frames e) (.result e)
  | none, _, _, h => absurd h faults_pure
  | some e, L, _, h => by
    simp only [resultValue, faults_bind, faults_pure, and_false, exists_false, or_false] at h
    exact .of_leads .result (operand_blames e h)

theorem runAll_blames : ∀ stmts : List Stmt, Blames frames (runAll frames stmts) (.all stmts)
  | [], _, _, h => absurd h faults_pure
  | s :: rest, L, _, h => by
    simp only [runAll, faults_bind] at h
    obtain h | ⟨flow, M, hs, h⟩ := h
    · exact .of_leads .eachStmt (run_blames s h)
    · exact .of_leads (.eachRest hs) (runAll_blames rest h)

theorem runStmts_blames :
    ∀ stmts : List Stmt, Blames frames (runStmts frames stmts) (.stmts stmts)
  | [], _, _, h => absurd h faults_pure
  | s :: rest, L, _, h => by
    simp only [runStmts, faults_bind] at h
    obtain h | ⟨flow, M, hs, h⟩ := h
    · exact .of_leads .stmt (run_blames s h)
    · cases flow with
      | left => exact absurd h faults_pure
      | onward => exact .of_leads (.stmts hs) (runStmts_blames rest h)

theorem runBlock_blames : ∀ b : Block, Blames frames (runBlock frames b) (.block b)
  | .mk stmts result, L, _, h => by
    simp only [runBlock, faults_bind] at h
    obtain h | ⟨flow, M, hstmts, h⟩ := h
    · exact .of_leads .block (runStmts_blames stmts h)
    · cases flow with
      | left => exact absurd h faults_pure
      | onward =>
        simp only [faults_bind, faults_pure, and_false, exists_false, or_false] at h
        exact .of_leads (.blockResult hstmts) (resultValue_blames result h)

theorem runOtherwise_blames :
    ∀ b : Option Block, Blames frames (runOtherwise frames b) (.otherwise b)
  | none, _, _, h => absurd h faults_pure
  | some b, _, _, h => .of_leads .otherwise (runBlock_blames b h)

theorem run_blames : ∀ s : Stmt, Blames frames (run frames s) (.stmt s)
  | .bind name slot value, L, _, h => by
    simp only [run, faults_bind, faults_pure, and_false, exists_false, or_false] at h
    obtain h | ⟨o, M, ho, h⟩ := h
    · exact .of_leads .initial (operand_blames value h)
    · have hslot := (writeLocal_faults h).2
      rw [(operand_grows frames value ho).length] at hslot
      exact .of_not_provided hslot
  | .assign name slot .set value, L, _, h => by
    simp only [run, faults_bind, faults_pure, and_false, exists_false, or_false] at h
    obtain h | ⟨o, M, ho, h⟩ := h
    · exact .of_leads .assigned (operand_blames value h)
    · refine .of_leads (.store ho) (.of_not_provided ?_)
      rintro ⟨v, hv⟩
      exact (writeLocal_faults h).2 (List.getElem?_eq_some_iff.1 hv).1
  | .assign name slot .append value, L, x, h => by
    simp only [run, faults_bind, faults_lift, faults_pure, and_false, exists_false, or_false] at h
    obtain h | ⟨o, M, ho, h | ⟨old, N, hold, h | ⟨new, K, hnew, h⟩⟩⟩ := h
    · exact .of_leads .assigned (operand_blames value h)
    · exact .of_leads (.store ho) (.of_not_provided (readLocal_faults h).2)
    · exact absurd h (append_defined old o.toValue x)
    · obtain ⟨-, rfl⟩ := yields_lift.1 hnew
      obtain ⟨hv, rfl⟩ := readLocal_yields.1 hold
      exact absurd (List.getElem?_eq_some_iff.1 hv).1 (writeLocal_faults h).2
  | .loop name slot start stop body, L, x, h => by
    simp only [run, faults_bind, faults_lift, yields_lift, faults_pure, and_false, exists_false,
      or_false] at h
    obtain h | ⟨o, M, ho, h | ⟨m, _, ⟨hm, rfl⟩, h | ⟨p, N, hp, h | ⟨n, _, ⟨hn, rfl⟩, h⟩⟩⟩⟩ := h
    · exact .of_leads .start (operand_blames start h)
    · exact absurd h (asInteger_defined o x)
    · exact .of_leads (.stop ho) (operand_blames stop h)
    · exact absurd h (asInteger_defined p x)
    · exact .of_leads (.rounds ho hm hp hn) (runLoop_blames (runBlock_blames body) _ _ h)
  | .branch condition yes no, L, x, h => by
    simp only [run, faults_bind] at h
    obtain h | ⟨o, M, ho, h⟩ := h
    · exact .of_leads .condition (operand_blames condition h)
    · split at h
      · rename_i hv
        exact .of_leads (.yes ho hv) (runBlock_blames yes h)
      · rename_i hv
        exact .of_leads (.no ho hv) (runOtherwise_blames no h)
      · exact absurd (faults_throw.1 h) nofun
  | .leave, _, _, h => absurd h faults_pure

end

end TextGrammar.Action
