import TextGrammar.Proofs.Compile.Legality
import TextGrammar.Proofs.Compile.Slots

/-! # What is found in an action

Resolving an action finds nothing exactly if the action is legal. Each part of an action is
resolved where it stands, with the locals that are in scope there, so this holds part by part. -/

namespace TextGrammar.Compile
open Source (Contains Declared LegalAction Occurs Part Site)

def LegalSite (scopes : List (List Source.Field)) : Site → Prop
  | (locals, .expr (.name _ name)) =>
    name ∈ locals.map Prod.fst ∨ ∃ fields ∈ scopes, ∃ f ∈ fields, name ∈ fieldNames f
  | (_, .expr (.record _ fields)) => (fields.map fun f => f.1.text).Nodup
  | (locals, .stmt _ (.assign _ name _ _)) => locals.lookup name.text = some true
  | (_, .stmt inLoop (.leave _)) => inLoop = true
  | _ => True

/-- A site and all that it contains are legal. -/
def LegalFrom (scopes : List (List Source.Field)) (site : Site) : Prop :=
  ∀ inner, Relation.ReflTransGen Contains site inner → LegalSite scopes inner

section
variable {scopes : List (List Source.Field)} {locals : Declared} {inLoop : Bool}

theorem legalAction_iff {e : Source.Expr} :
    LegalAction scopes e ↔ LegalFrom scopes ([], .expr e) := by
  constructor
  · rintro ⟨hread, hassigned, hleft, hapart⟩ ⟨locals, part⟩ hinner
    cases part with
    | expr e =>
      cases e with
      | name => exact hread hinner
      | record => exact hapart hinner
      | _ => trivial
    | block => trivial
    | stmt inLoop s =>
      cases s with
      | assign => exact hassigned hinner
      | leave => exact hleft hinner
      | _ => trivial
  · intro h
    exact ⟨fun _ _ _ hinner => h _ hinner, fun _ _ _ _ _ _ hinner => h _ hinner,
      fun _ _ _ hinner => h _ hinner, fun _ _ _ hinner => h _ hinner⟩

/-- A site is legal with all that it contains if it is by itself and what it contains directly is
so. -/
theorem legalFrom_iff {site : Site} :
    LegalFrom scopes site ↔
      LegalSite scopes site ∧ ∀ inner, Contains site inner → LegalFrom scopes inner := by
  constructor
  · intro h
    exact ⟨h site .refl, fun inner hinner deep hdeep => h deep (.head hinner hdeep)⟩
  · rintro ⟨hsite, hinner⟩ deep hdeep
    rcases Relation.ReflTransGen.cases_head hdeep with rfl | ⟨inner, hfirst, hrest⟩
    · exact hsite
    · exact hinner inner hfirst deep hrest

theorem legalFrom_expr {e : Source.Expr} :
    LegalFrom scopes (locals, .expr e) ↔ LegalSite scopes (locals, .expr e) ∧
      (∀ e' ∈ e.operands, LegalFrom scopes (locals, .expr e')) ∧
      ∀ span b, e = .block span b → LegalFrom scopes (locals, .block false b) := by
  rw [legalFrom_iff, and_congr_right_iff]
  intro _
  constructor
  · intro h
    refine ⟨fun e' he' => h _ (.operand he'), ?_⟩
    rintro span b rfl
    exact h _ .body
  · rintro ⟨hoperands, hbody⟩ inner hinner
    cases hinner with
    | operand he' => exact hoperands _ he'
    | body => exact hbody _ _ rfl

theorem legalFrom_block {stmts : List Source.Stmt} {result : Option Source.Expr} :
    LegalFrom scopes (locals, .block inLoop (.mk stmts result)) ↔
      (∀ front s back, stmts = front ++ s :: back →
        LegalFrom scopes (Source.Stmt.declaredBy front ++ locals, .stmt inLoop s)) ∧
      ∀ e, result = some e →
        LegalFrom scopes (Source.Stmt.declaredBy stmts ++ locals, .expr e) := by
  rw [legalFrom_iff]
  constructor
  · rintro ⟨-, h⟩
    constructor
    · rintro front s back rfl
      exact h _ .stmt
    · rintro e rfl
      exact h _ .result
  · rintro ⟨hstmts, hresult⟩
    refine ⟨trivial, fun inner hinner => ?_⟩
    cases hinner with
    | stmt => exact hstmts _ _ _ rfl
    | result => exact hresult _ rfl

theorem legalFrom_stmt {s : Source.Stmt} :
    LegalFrom scopes (locals, .stmt inLoop s) ↔ LegalSite scopes (locals, .stmt inLoop s) ∧
      (∀ e ∈ s.operands, LegalFrom scopes (locals, .expr e)) ∧
      (∀ span name start stop b, s = .loop span name start stop b →
        LegalFrom scopes ((name.text, false) :: locals, .block true b)) ∧
      ∀ span condition yes no, s = .branch span condition yes no →
        LegalFrom scopes (locals, .block inLoop yes) ∧
          ∀ b, no = some b → LegalFrom scopes (locals, .block inLoop b) := by
  rw [legalFrom_iff, and_congr_right_iff]
  intro _
  constructor
  · intro h
    refine ⟨fun e he => h _ (.value he), ?_, ?_⟩
    · rintro span name start stop b rfl
      exact h _ .round
    · rintro span condition yes no rfl
      refine ⟨h _ .yes, ?_⟩
      rintro b rfl
      exact h _ .no
  · rintro ⟨hoperands, hloop, hbranch⟩ inner hinner
    cases hinner with
    | value he => exact hoperands _ he
    | round => exact hloop _ _ _ _ _ rfl
    | yes => exact (hbranch _ _ _ _ rfl).1
    | no => exact (hbranch _ _ _ _ rfl).2 _ rfl

theorem legalFrom_loop {span : Span} {name : Source.Name} {start stop : Source.Expr}
    {b : Source.Block} :
    LegalFrom scopes (locals, .stmt inLoop (.loop span name start stop b)) ↔
      LegalFrom scopes (locals, .expr start) ∧ LegalFrom scopes (locals, .expr stop) ∧
        LegalFrom scopes ((name.text, false) :: locals, .block true b) := by
  rw [legalFrom_stmt, Source.Stmt.operands]
  constructor
  · rintro ⟨-, hoperands, hbody, -⟩
    exact ⟨hoperands start (by simp), hoperands stop (by simp), hbody _ _ _ _ _ rfl⟩
  · rintro ⟨hstart, hstop, hbody⟩
    refine ⟨trivial, by simp [hstart, hstop], ?_, ?_⟩
    · rintro _ _ _ _ _ ⟨⟩
      exact hbody
    · rintro _ _ _ _ ⟨⟩

theorem legalFrom_branch {span : Span} {condition : Source.Expr} {yes : Source.Block}
    {no : Option Source.Block} :
    LegalFrom scopes (locals, .stmt inLoop (.branch span condition yes no)) ↔
      LegalFrom scopes (locals, .expr condition) ∧ LegalFrom scopes (locals, .block inLoop yes) ∧
        ∀ b, no = some b → LegalFrom scopes (locals, .block inLoop b) := by
  rw [legalFrom_stmt, Source.Stmt.operands]
  constructor
  · rintro ⟨-, hoperands, -, hblocks⟩
    exact ⟨hoperands condition (by simp), hblocks _ _ _ _ rfl⟩
  · rintro ⟨hcondition, hyes, hno⟩
    refine ⟨trivial, by simp [hcondition], ?_, ?_⟩
    · rintro _ _ _ _ _ ⟨⟩
    · rintro _ _ _ _ ⟨⟩
      exact ⟨hyes, hno⟩

end

section
variable {α β : Type}

def Quiet (m : Numbering α) (n : Nat) : Prop := (m.run n).findings = []

theorem quiet_iff_numbers {m : Numbering α} {n : Nat} :
    Quiet m n ↔ ∃ x next, Numbers m n x next := by
  constructor
  · intro h
    exact ⟨(m.run n).result.1, (m.run n).result.2, clean_iff.2 ⟨rfl, h⟩⟩
  · rintro ⟨x, next, h⟩
    exact (clean_iff.1 h).2

@[simp] theorem quiet_pure (x : α) (n : Nat) : Quiet (pure x) n := rfl

@[simp] theorem quiet_bind {m : Numbering α} {f : α → Numbering β} {n : Nat} :
    Quiet (m >>= f) n ↔ Quiet m n ∧ Quiet (f (m.run n).result.1) (m.run n).result.2 := by
  simp only [Quiet, StateT.run_bind, Checked.bind_findings, List.append_eq_nil_iff]

@[simp] theorem quiet_report {span : Span} {problem : Problem} {n : Nat} :
    ¬Quiet (report span problem) n := nofun

@[simp] theorem quiet_declareLocal (locals : Locals) (name : String) (mutable : Bool) (n : Nat) :
    Quiet (declareLocal locals name mutable) n := rfl

theorem result_bind (m : Numbering α) (f : α → Numbering β) (n : Nat) :
    ((m >>= f).run n).result = ((f (m.run n).result.1).run (m.run n).result.2).result := by
  rw [StateT.run_bind, Checked.bind_result]

end

def FreshNames (earlier names : List String) : Prop := names.Nodup ∧ ∀ name ∈ names, name ∉ earlier

theorem freshNames_nil {names : List String} : FreshNames [] names ↔ names.Nodup := by
  simp [FreshNames]

theorem freshNames_cons {earlier names : List String} {name : String} :
    FreshNames earlier (name :: names) ↔ name ∉ earlier ∧ FreshNames (name :: earlier) names := by
  rw [FreshNames, FreshNames, List.nodup_cons, List.forall_mem_cons]
  constructor
  · rintro ⟨⟨hname, hnodup⟩, hnew, hnames⟩
    refine ⟨hnew, hnodup, fun other hother hmem => ?_⟩
    rcases List.mem_cons.1 hmem with rfl | hmem
    · exact hname hother
    · exact hnames other hother hmem
  · rintro ⟨hnew, hnodup, hnames⟩
    refine ⟨⟨fun hname => hnames name hname List.mem_cons_self, hnodup⟩, hnew, ?_⟩
    exact fun other hother hmem => hnames other hother (List.mem_cons_of_mem _ hmem)

def declaredLocals (locals : Locals) : Declared := locals.map fun l => (l.1, l.2.mutable)

theorem lookup_declaredLocals (locals : Locals) (name : String) :
    (declaredLocals locals).lookup name = (locals.lookup name).map (·.mutable) := by
  induction locals with
  | nil => rfl
  | cons entry rest ih =>
    obtain ⟨key, l⟩ := entry
    simp only [declaredLocals, List.map_cons, List.lookup_cons] at ih ⊢
    split
    · rfl
    · exact ih

theorem mem_declaredLocals {locals : Locals} {name : String} :
    name ∈ (declaredLocals locals).map Prod.fst ↔ ∃ l, locals.lookup name = some l := by
  induction locals with
  | nil => simp [declaredLocals]
  | cons entry rest ih =>
    obtain ⟨key, l⟩ := entry
    simp only [declaredLocals, List.map_cons, List.mem_cons, List.lookup_cons] at ih ⊢
    by_cases h : name = key
    · simp [h]
    · have hbeq : (name == key) = false := by simpa using h
      simp only [h, hbeq, false_or, ih]

theorem lists_lookup {scope : Scope} {front : List Source.Field} (h : Lists scope front)
    (name : String) :
    (∃ slot, scope.lookup name = some slot) ↔ ∃ f ∈ front, name ∈ fieldNames f := by
  rw [← Option.isSome_iff_exists, h name, List.findIdx?_isSome, List.any_eq_true]
  simp only [bound, List.mem_filter, decide_eq_true_eq]
  constructor
  · rintro ⟨f, ⟨hf, -⟩, hname⟩
    exact ⟨f, hf, hname⟩
  · rintro ⟨f, hf, hname⟩
    have hbound : isBound f = true := by
      unfold isBound
      cases hnames : fieldNames f with
      | nil => rw [hnames] at hname; cases hname
      | cons => rfl
    exact ⟨f, ⟨hf, hbound⟩, hname⟩

theorem lookupCapture_iff {captures : List Scope} {scopes : List (List Source.Field)}
    (h : List.Forall₂ Lists captures scopes) (name : String) (from_ : Nat) :
    (∃ depth slot, lookupCapture from_ name captures = .capture depth slot) ↔
      ∃ fields ∈ scopes, ∃ f ∈ fields, name ∈ fieldNames f := by
  induction h generalizing from_ with
  | nil => simp [lookupCapture]
  | @cons scope fields _ _ hscope _ ih =>
    have hfields := lists_lookup hscope name
    unfold lookupCapture
    cases hslot : scope.lookup name with
    | some slot =>
      have hfound := hfields.1 ⟨slot, hslot⟩
      exact ⟨fun _ => ⟨fields, List.mem_cons_self, hfound⟩, fun _ => ⟨from_, slot, rfl⟩⟩
    | none =>
      have hnone : ¬∃ f ∈ fields, name ∈ fieldNames f := by
        rw [← hfields, hslot]
        simp
      simp only [ih, List.mem_cons, exists_eq_or_imp, hnone, false_or]

section
variable {captures : List Scope} {scopes : List (List Source.Field)} {locals : Locals}

/-- A name that is read means something exactly if it is legal there. -/
theorem lowerName_quiet (hscopes : List.Forall₂ Lists captures scopes) {span : Span}
    {name : String} {n : Nat} :
    Quiet (lowerName captures locals span name) n ↔
      LegalSite scopes (declaredLocals locals, .expr (.name span name)) := by
  have hcaptured := lookupCapture_iff hscopes name 0
  simp only [quiet_iff_numbers, lowerName_numbers, LegalSite, mem_declaredLocals, ← hcaptured]
  constructor
  · rintro ⟨_, _, -, ⟨l, hl, -⟩ | ⟨depth, slot, -, hslot, -⟩⟩
    · exact .inl ⟨l, hl⟩
    · exact .inr ⟨depth, slot, hslot⟩
  · intro h
    cases hlocal : locals.lookup name with
    | some l => exact ⟨_, n, rfl, .inl ⟨l, rfl, rfl⟩⟩
    | none =>
      obtain ⟨l, hl⟩ | ⟨depth, slot, hslot⟩ := h
      · rw [hlocal] at hl
        cases hl
      · exact ⟨_, n, rfl, .inr ⟨depth, slot, rfl, hslot, rfl⟩⟩

/-- A name that is assigned is a local exactly if it is legal there. -/
theorem assignedSlot_quiet {name : Source.Name} {n : Nat} :
    Quiet (assignedSlot captures locals name) n ↔
      (declaredLocals locals).lookup name.text = some true := by
  simp only [quiet_iff_numbers, assignedSlot_numbers, lookup_declaredLocals, Option.map_eq_some_iff]
  constructor
  · rintro ⟨_, _, -, l, hl, hmutable, -⟩
    exact ⟨l, hl, hmutable⟩
  · rintro ⟨l, hl, hmutable⟩
    exact ⟨_, n, rfl, l, hl, hmutable, rfl⟩

/-- What a statement declares is in scope behind it. -/
theorem lowerStmt_declared (inLoop : Bool) (s : Source.Stmt) (n : Nat) :
    declaredLocals ((lowerStmt captures locals inLoop s).run n).result.1.2 =
      s.declared ++ declaredLocals locals := by
  cases s with
  | bind => rfl
  | assign => rfl
  | loop => rfl
  | branch => rfl
  | leave => cases inLoop <;> rfl

theorem lowerStmts_declared (inLoop : Bool) (stmts : List Source.Stmt) (n : Nat) :
    declaredLocals ((lowerStmts captures locals inLoop stmts).run n).result.1.2 =
      Source.Stmt.declaredBy stmts ++ declaredLocals locals := by
  induction stmts generalizing locals n with
  | nil => rfl
  | cons s rest ih =>
    simp only [lowerStmts, result_bind]
    change declaredLocals ((lowerStmts captures _ inLoop rest).run _).result.1.2 = _
    rw [ih, lowerStmt_declared, Source.Stmt.declaredBy, List.append_assoc]

end

/-- What is found in some statements is found in one of them. -/
theorem forall_stmts_cons {P : List Source.Stmt → Source.Stmt → Prop} {first : Source.Stmt}
    {rest : List Source.Stmt} :
    (∀ front s back, first :: rest = front ++ s :: back → P front s) ↔
      P [] first ∧ ∀ front s back, rest = front ++ s :: back → P (first :: front) s := by
  constructor
  · intro h
    exact ⟨h [] first rest rfl, fun front s back hrest =>
      h (first :: front) s back (by rw [hrest, List.cons_append])⟩
  · rintro ⟨hfirst, hrest⟩ front s back heq
    cases front with
    | nil =>
      cases heq
      exact hfirst
    | cons other front =>
      cases heq
      exact hrest front s back rfl

section
variable {captures : List Scope} {scopes : List (List Source.Field)}

mutual

/-- Nothing is found in an expression exactly if it is legal with all that it contains. -/
theorem lowerExpr_quiet (hscopes : List.Forall₂ Lists captures scopes) :
    ∀ (e : Source.Expr) (locals : Locals) (n : Nat), Quiet (lowerExpr captures locals e) n ↔
      LegalFrom scopes (declaredLocals locals, .expr e)
  | .int _ _, _, _ | .float _ _, _, _ | .str _ _, _, _ | .bool _ _, _, _ | .null _, _, _ => by
    rw [legalFrom_expr, lowerExpr]
    simp [LegalSite, Source.Expr.operands]
  | .name span name, locals, n => by
    rw [legalFrom_expr, lowerExpr]
    simp [lowerName_quiet hscopes, Source.Expr.operands]
  | .index _ base position, locals, n => by
    rw [legalFrom_expr, lowerExpr]
    simp [LegalSite, Source.Expr.operands,
      lowerExpr_quiet hscopes base, lowerExpr_quiet hscopes position]
  | .field _ base _, locals, n => by
    rw [legalFrom_expr, lowerExpr]
    simp [LegalSite, Source.Expr.operands, lowerExpr_quiet hscopes base]
  | .call _ _ arguments, locals, n => by
    rw [legalFrom_expr, lowerExpr]
    simp [LegalSite, Source.Expr.operands, lowerExprs_quiet hscopes arguments]
  | .binary _ _ lhs rhs, locals, n => by
    rw [legalFrom_expr, lowerExpr]
    simp [LegalSite, Source.Expr.operands, lowerExpr_quiet hscopes lhs, lowerExpr_quiet hscopes rhs]
  | .list _ items, locals, n => by
    rw [legalFrom_expr, lowerExpr]
    simp [LegalSite, Source.Expr.operands, lowerExprs_quiet hscopes items]
  | .record _ fields, locals, n => by
    rw [legalFrom_expr, lowerExpr, Source.Expr.operands, List.forall_mem_map]
    simp [LegalSite, lowerRecord_quiet hscopes fields, freshNames_nil]
  | .block _ body, locals, n => by
    rw [legalFrom_expr, lowerExpr]
    simp [LegalSite, Source.Expr.operands, lowerBlock_quiet hscopes body]

theorem lowerExprs_quiet (hscopes : List.Forall₂ Lists captures scopes) :
    ∀ (es : List Source.Expr) (locals : Locals) (n : Nat), Quiet (lowerExprs captures locals es) n ↔
      ∀ e ∈ es, LegalFrom scopes (declaredLocals locals, .expr e)
  | [], _, _ => by simp [lowerExprs]
  | e :: es, locals, n => by
    simp [lowerExprs, lowerExpr_quiet hscopes e, lowerExprs_quiet hscopes es]

theorem lowerRecord_quiet (hscopes : List.Forall₂ Lists captures scopes) :
    ∀ (fields : List (Source.Name × Source.Expr)) (locals : Locals) (seen : List String) (n : Nat),
      Quiet (lowerRecord captures locals seen fields) n ↔
        FreshNames seen (fields.map fun f => f.1.text) ∧
          ∀ f ∈ fields, LegalFrom scopes (declaredLocals locals, .expr f.2)
  | [], _, _, _ => by simp [lowerRecord, FreshNames]
  | (name, e) :: rest, locals, seen, n => by
    have he := lowerExpr_quiet hscopes e locals
    have hrest := lowerRecord_quiet hscopes rest locals (name.text :: seen)
    rw [List.map_cons, freshNames_cons]
    unfold lowerRecord
    by_cases hseen : name.text ∈ seen
    · simp [hseen]
    · simp only [hseen, if_false, quiet_bind, quiet_pure, and_true, he, hrest, List.forall_mem_cons,
        not_false_eq_true, true_and]
      exact and_left_comm

theorem lowerBlock_quiet (hscopes : List.Forall₂ Lists captures scopes) :
    ∀ (b : Source.Block) (locals : Locals) (inLoop : Bool) (n : Nat),
      Quiet (lowerBlock captures locals inLoop b) n ↔
        LegalFrom scopes (declaredLocals locals, .block inLoop b)
  | .mk stmts result, locals, inLoop, n => by
    rw [legalFrom_block, lowerBlock]
    simp [lowerStmts_quiet hscopes stmts, lowerResult_quiet hscopes result, lowerStmts_declared]

theorem lowerResult_quiet (hscopes : List.Forall₂ Lists captures scopes) :
    ∀ (result : Option Source.Expr) (locals : Locals) (n : Nat),
      Quiet (lowerResult captures locals result) n ↔
        ∀ e, result = some e → LegalFrom scopes (declaredLocals locals, .expr e)
  | none, _, _ => by simp [lowerResult]
  | some e, locals, n => by simp [lowerResult, lowerExpr_quiet hscopes e]

theorem lowerOtherwise_quiet (hscopes : List.Forall₂ Lists captures scopes) :
    ∀ (no : Option Source.Block) (locals : Locals) (inLoop : Bool) (n : Nat),
      Quiet (lowerOtherwise captures locals inLoop no) n ↔
        ∀ b, no = some b → LegalFrom scopes (declaredLocals locals, .block inLoop b)
  | none, _, _, _ => by simp [lowerOtherwise]
  | some b, locals, inLoop, n => by simp [lowerOtherwise, lowerBlock_quiet hscopes b]

theorem lowerStmts_quiet (hscopes : List.Forall₂ Lists captures scopes) :
    ∀ (stmts : List Source.Stmt) (locals : Locals) (inLoop : Bool) (n : Nat),
      Quiet (lowerStmts captures locals inLoop stmts) n ↔
        ∀ front s back, stmts = front ++ s :: back →
          LegalFrom scopes
            (Source.Stmt.declaredBy front ++ declaredLocals locals, .stmt inLoop s)
  | [], _, _, _ => by simp [lowerStmts]
  | s :: rest, locals, inLoop, n => by
    rw [forall_stmts_cons (P := fun front s => LegalFrom scopes
      (Source.Stmt.declaredBy front ++ declaredLocals locals, .stmt inLoop s))]
    simp [lowerStmts, lowerStmt_quiet hscopes s, lowerStmts_quiet hscopes rest, lowerStmt_declared,
      Source.Stmt.declaredBy]

theorem lowerStmt_quiet (hscopes : List.Forall₂ Lists captures scopes) :
    ∀ (s : Source.Stmt) (locals : Locals) (inLoop : Bool) (n : Nat),
      Quiet (lowerStmt captures locals inLoop s) n ↔
        LegalFrom scopes (declaredLocals locals, .stmt inLoop s)
  | .bind _ name mutable value, locals, inLoop, n => by
    rw [legalFrom_stmt, lowerStmt]
    simp [LegalSite, Source.Stmt.operands, lowerExpr_quiet hscopes value]
  | .assign _ name mode value, locals, inLoop, n => by
    rw [legalFrom_stmt, lowerStmt]
    simp [LegalSite, Source.Stmt.operands,
      lowerExpr_quiet hscopes value, assignedSlot_quiet, and_comm]
  | .loop _ name start stop body, locals, inLoop, n => by
    rw [legalFrom_loop, lowerStmt]
    simp only [quiet_bind, quiet_pure, quiet_declareLocal, and_true, true_and,
      lowerExpr_quiet hscopes start, lowerExpr_quiet hscopes stop]
    exact and_congr_right fun _ => and_congr_right fun _ => lowerBlock_quiet hscopes body _ true _
  | .branch _ condition yes no, locals, inLoop, n => by
    rw [legalFrom_branch, lowerStmt]
    simp only [quiet_bind, quiet_pure, and_true, lowerExpr_quiet hscopes condition,
      lowerBlock_quiet hscopes yes, lowerOtherwise_quiet hscopes no]
  | .leave _, locals, inLoop, n => by
    rw [legalFrom_stmt, lowerStmt]
    cases inLoop <;> simp [LegalSite, Source.Stmt.operands]

end

/-- Nothing is found in an action exactly if it is legal. -/
theorem lowerAction_findings (hscopes : List.Forall₂ Lists captures scopes) (e : Source.Expr) :
    (lowerAction captures e).findings = [] ↔ LegalAction scopes e := by
  rw [legalAction_iff]
  exact lowerExpr_quiet hscopes e [] 0

end

end TextGrammar.Compile
