import TextGrammar.Proofs.Display.Contents
import TextGrammar.Proofs.Display.Rebinding
import TextGrammar.Proofs.Source.WellFormed

/-! # Compiled grammars are legible

The parser takes care that names are identifiers and that blocks and choices are not too short.
So of a compiled grammar only the constants, the quoted texts and the names that fields are bound
to have to be asked for: these need not stand in its source as they are displayed. -/

namespace TextGrammar
open Compile (Numbers numbers_bind numbers_pure numbers_report lowerExpr lowerExprs lowerRecord
  lowerBlock lowerResult lowerOtherwise lowerStmts lowerStmt lowerName_numbers Scope Locals)
open Token (isName)

def Value.IsReadable : Value → Prop
  | .float x => Number.IsLegible x
  | .str s => Text.IsLegible s
  | _ => True

section
variable {scopes : List Scope} {locals after : Locals} {inLoop : Bool} {n next : Nat}

theorem name_legible {span : Span} {name : String} {e : Expr}
    (hname : isName name.toList = true)
    (h : Numbers (lowerExpr scopes locals (.name span name)) n e next) : e.IsLegible := by
  obtain ⟨-, ⟨l, -, rfl⟩ | ⟨depth, slot, -, -, rfl⟩⟩ := lowerName_numbers.1 h
  · exact hname
  · exact hname

theorem lowerStmts_nil {stmts : List Source.Stmt}
    (h : Numbers (lowerStmts scopes locals inLoop stmts) n ([], after) next) : stmts = [] := by
  cases stmts with
  | nil => rfl
  | cons s rest =>
    simp only [lowerStmts, numbers_bind, numbers_pure] at h
    obtain ⟨_, _, _, _, _, _, heq, -⟩ := h
    cases heq

theorem lowerResult_none {result : Option Source.Expr}
    (h : Numbers (lowerResult scopes locals result) n none next) : result = none := by
  cases result with
  | none => rfl
  | some e =>
    simp only [lowerResult, numbers_bind, numbers_pure] at h
    obtain ⟨_, _, _, heq, -⟩ := h
    cases heq

/-- A block with content keeps it. -/
theorem lowerBlock_ne {b : Source.Block} {c : Block} (hne : b ≠ .mk [] none)
    (h : Numbers (lowerBlock scopes locals inLoop b) n c next) : c ≠ .mk [] none := by
  rintro rfl
  rcases b with ⟨stmts, result⟩
  simp only [lowerBlock, numbers_bind, numbers_pure] at h
  obtain ⟨⟨ts, inner⟩, _, hstmts, r, _, hresult, heq, -⟩ := h
  cases heq
  obtain rfl := lowerStmts_nil hstmts
  obtain rfl := lowerResult_none hresult
  exact hne rfl

end

section
variable {scopes : List Scope}

mutual

theorem expr_legible : ∀ {s : Source.Expr} {e : Expr} {locals : Locals} {n next : Nat},
    s.WellFormed → Numbers (lowerExpr scopes locals s) n e next →
      (∀ v ∈ e.constants, v.IsReadable) → e.IsLegible
  | .int _ _, _, _, _, _, _, h, _ | .bool _ _, _, _, _, _, _, h, _
  | .null _, _, _, _, _, _, h, _ => by
    obtain ⟨rfl, -⟩ := numbers_pure.1 h
    trivial
  | .float _ x, _, _, _, _, _, h, hread => by
    obtain ⟨rfl, -⟩ := numbers_pure.1 h
    exact hread (.float x) (List.mem_singleton.2 rfl)
  | .str _ s, _, _, _, _, _, h, hread => by
    obtain ⟨rfl, -⟩ := numbers_pure.1 h
    exact hread (.str s) (List.mem_singleton.2 rfl)
  | .name _ _, _, _, _, _, .name hname, h, _ => name_legible hname h
  | .index _ base position, _, _, _, _, .index hbase hposition, h, hread => by
    simp only [lowerExpr, numbers_bind, numbers_pure] at h
    obtain ⟨b, _, hb, p, _, hp, rfl, rfl⟩ := h
    have hparts := List.forall_mem_append.1 hread
    exact ⟨expr_legible hbase hb hparts.1, expr_legible hposition hp hparts.2⟩
  | .field _ base _, _, _, _, _, .field hbase hname, h, hread => by
    simp only [lowerExpr, numbers_bind, numbers_pure] at h
    obtain ⟨b, _, hb, rfl, rfl⟩ := h
    exact ⟨expr_legible hbase hb hread, hname⟩
  | .call _ _ arguments, _, _, _, _, .call hname harguments, h, hread => by
    simp only [lowerExpr, numbers_bind, numbers_pure] at h
    obtain ⟨es, _, hes, rfl, rfl⟩ := h
    exact ⟨hname, exprs_legible harguments hes hread⟩
  | .binary _ _ lhs rhs, _, _, _, _, .binary hlhs hrhs, h, hread => by
    simp only [lowerExpr, numbers_bind, numbers_pure] at h
    obtain ⟨a, _, ha, b, _, hb, rfl, rfl⟩ := h
    have hparts := List.forall_mem_append.1 hread
    exact ⟨expr_legible hlhs ha hparts.1, expr_legible hrhs hb hparts.2⟩
  | .list _ items, _, _, _, _, .list hitems, h, hread => by
    simp only [lowerExpr, numbers_bind, numbers_pure] at h
    obtain ⟨es, _, hes, rfl, rfl⟩ := h
    exact exprs_legible hitems hes hread
  | .record _ fields, _, _, _, _, .record hnames hvalues, h, hread => by
    simp only [lowerExpr, numbers_bind, numbers_pure] at h
    obtain ⟨es, _, hes, rfl, rfl⟩ := h
    exact record_legible hnames hvalues hes hread
  | .block _ body, _, _, _, _, .block hne hbody, h, hread => by
    simp only [lowerExpr, numbers_bind, numbers_pure] at h
    obtain ⟨b, _, hb, rfl, rfl⟩ := h
    exact ⟨lowerBlock_ne hne hb, block_legible hbody hb hread⟩

theorem exprs_legible : ∀ {ss : List Source.Expr} {es : List Expr} {locals : Locals} {n next : Nat},
    (∀ s ∈ ss, s.WellFormed) → Numbers (lowerExprs scopes locals ss) n es next →
      (∀ v ∈ Expr.constantsOfAll es, v.IsReadable) → Expr.AreLegible es
  | [], _, _, _, _, _, h, _ => by
    obtain ⟨rfl, -⟩ := numbers_pure.1 h
    trivial
  | s :: ss, _, _, _, _, hss, h, hread => by
    simp only [lowerExprs, numbers_bind, numbers_pure] at h
    obtain ⟨e, _, he, es, _, hes, rfl, rfl⟩ := h
    have hwell := List.forall_mem_cons.1 hss
    have hparts := List.forall_mem_append.1 hread
    exact ⟨expr_legible hwell.1 he hparts.1, exprs_legible hwell.2 hes hparts.2⟩

theorem record_legible :
    ∀ {fs : List (Source.Name × Source.Expr)} {es : List (String × Expr)} {locals : Locals}
      {seen : List String} {n next : Nat}, (∀ f ∈ fs, isName f.1.text.toList = true) →
      (∀ f ∈ fs, f.2.WellFormed) → Numbers (lowerRecord scopes locals seen fs) n es next →
      (∀ v ∈ Expr.constantsOfFields es, v.IsReadable) → Expr.FieldsLegible es
  | [], _, _, _, _, _, _, _, h, _ => by
    obtain ⟨rfl, -⟩ := numbers_pure.1 h
    trivial
  | (name, s) :: fs, _, _, _, _, _, hnames, hvalues, h, hread => by
    unfold lowerRecord at h
    split at h
    · simp only [numbers_bind, numbers_report, false_and, exists_false] at h
    · simp only [numbers_bind, numbers_pure] at h
      obtain ⟨e, _, he, es, _, hes, rfl, rfl⟩ := h
      have hname := List.forall_mem_cons.1 hnames
      have hwell := List.forall_mem_cons.1 hvalues
      have hparts := List.forall_mem_append.1 hread
      exact ⟨hname.1, expr_legible hwell.1 he hparts.1,
        record_legible hname.2 hwell.2 hes hparts.2⟩

theorem block_legible :
    ∀ {b : Source.Block} {c : Block} {locals : Locals} {inLoop : Bool} {n next : Nat},
      b.WellFormed → Numbers (lowerBlock scopes locals inLoop b) n c next →
        (∀ v ∈ c.constants, v.IsReadable) → c.IsLegible
  | .mk stmts result, _, _, _, _, _, .mk hstmts hresult, h, hread => by
    simp only [lowerBlock, numbers_bind, numbers_pure] at h
    obtain ⟨⟨ts, inner⟩, _, hts, r, _, hr, rfl, rfl⟩ := h
    have hparts := List.forall_mem_append.1 hread
    exact ⟨stmts_legible hstmts hts hparts.1, result_legible hresult hr hparts.2⟩

theorem result_legible :
    ∀ {s : Option Source.Expr} {e : Option Expr} {locals : Locals} {n next : Nat},
      (∀ x ∈ s, x.WellFormed) → Numbers (lowerResult scopes locals s) n e next →
        (∀ v ∈ Expr.constantsOfResult e, v.IsReadable) → Expr.ResultLegible e
  | none, _, _, _, _, _, h, _ => by
    obtain ⟨rfl, -⟩ := numbers_pure.1 h
    trivial
  | some s, _, _, _, _, hs, h, hread => by
    simp only [lowerResult, numbers_bind, numbers_pure] at h
    obtain ⟨e, _, he, rfl, rfl⟩ := h
    exact expr_legible (hs s rfl) he hread

theorem otherwise_legible :
    ∀ {b : Option Source.Block} {c : Option Block} {locals : Locals} {inLoop : Bool}
      {n next : Nat}, (∀ x ∈ b, x.WellFormed) →
      Numbers (lowerOtherwise scopes locals inLoop b) n c next →
        (∀ v ∈ Block.constantsOfOtherwise c, v.IsReadable) → Block.OtherwiseLegible c
  | none, _, _, _, _, _, _, h, _ => by
    obtain ⟨rfl, -⟩ := numbers_pure.1 h
    trivial
  | some b, _, _, _, _, _, hb, h, hread => by
    simp only [lowerOtherwise, numbers_bind, numbers_pure] at h
    obtain ⟨c, _, hc, rfl, rfl⟩ := h
    exact block_legible (hb b rfl) hc hread

theorem stmts_legible :
    ∀ {ss : List Source.Stmt} {ts : List Stmt} {locals after : Locals} {inLoop : Bool}
      {n next : Nat}, (∀ s ∈ ss, s.WellFormed) →
      Numbers (lowerStmts scopes locals inLoop ss) n (ts, after) next →
        (∀ v ∈ Stmt.constantsOfAll ts, v.IsReadable) → Stmt.AreLegible ts
  | [], _, _, _, _, _, _, _, h, _ => by
    obtain ⟨⟨⟩, -⟩ := numbers_pure.1 h
    trivial
  | s :: ss, _, _, _, _, _, _, hss, h, hread => by
    simp only [lowerStmts, numbers_bind, numbers_pure, Prod.mk.injEq] at h
    obtain ⟨⟨t, inner⟩, _, ht, ⟨ts, after⟩, _, hts, ⟨rfl, rfl⟩, rfl⟩ := h
    have hwell := List.forall_mem_cons.1 hss
    have hparts := List.forall_mem_append.1 hread
    exact ⟨stmt_legible hwell.1 ht hparts.1, stmts_legible hwell.2 hts hparts.2⟩

theorem stmt_legible :
    ∀ {s : Source.Stmt} {t : Stmt} {locals after : Locals} {inLoop : Bool} {n next : Nat},
      s.WellFormed → Numbers (lowerStmt scopes locals inLoop s) n (t, after) next →
        (∀ v ∈ t.constants, v.IsReadable) → t.IsLegible
  | .bind _ _ _ value, _, _, _, _, _, _, .bind hname hvalue, h, hread => by
    simp only [lowerStmt, numbers_bind, numbers_pure, Prod.mk.injEq] at h
    obtain ⟨e, _, he, ⟨slot, inner⟩, _, -, ⟨rfl, rfl⟩, rfl⟩ := h
    exact ⟨hname, expr_legible hvalue he hread⟩
  | .assign _ _ _ value, _, _, _, _, _, _, .assign hname hvalue, h, hread => by
    simp only [lowerStmt, numbers_bind, numbers_pure, Prod.mk.injEq] at h
    obtain ⟨e, _, he, slot, _, -, ⟨rfl, rfl⟩, rfl⟩ := h
    exact ⟨hname, expr_legible hvalue he hread⟩
  | .loop _ _ start stop body, _, _, _, _, _, _, .loop hname hstart hstop hbody, h, hread => by
    simp only [lowerStmt, numbers_bind, numbers_pure, Prod.mk.injEq] at h
    obtain ⟨e, _, he, f, _, hf, ⟨slot, inner⟩, _, -, c, _, hc, ⟨rfl, rfl⟩, rfl⟩ := h
    have hparts := List.forall_mem_append.1 hread
    have hrest := List.forall_mem_append.1 hparts.2
    exact ⟨hname, expr_legible hstart he hparts.1, expr_legible hstop hf hrest.1,
      block_legible hbody hc hrest.2⟩
  | .branch _ condition yes no, _, _, _, _, _, _, .branch hcondition hyes hno, h, hread => by
    simp only [lowerStmt, numbers_bind, numbers_pure, Prod.mk.injEq] at h
    obtain ⟨e, _, he, c, _, hc, d, _, hd, ⟨rfl, rfl⟩, rfl⟩ := h
    have hparts := List.forall_mem_append.1 hread
    have hrest := List.forall_mem_append.1 hparts.2
    exact ⟨expr_legible hcondition he hparts.1, block_legible hyes hc hrest.1,
      otherwise_legible hno hd hrest.2⟩
  | .leave _, _, _, _, _, _, _, _, h, _ => by
    unfold lowerStmt at h
    split at h
    · simp only [numbers_bind, numbers_report, false_and, exists_false] at h
    · obtain ⟨⟨⟩, -⟩ := numbers_pure.1 h
      trivial

end

end

/-- What a pattern itself writes reads back: its quoted texts, the names that its fields are bound
to, and the constants of its action. -/
structure Pattern.IsReadable (p : Pattern) : Prop where
  quoted : ∀ text ∈ p.quoted, Text.IsLegible text
  bindings : ∀ name ∈ p.bindings, isName name.toList = true
  constants : ∀ v ∈ p.constants, v.IsReadable

theorem Pattern.IsReadable.binding {p q : Pattern} {fields : List Field}
    (hp : p.IsReadable) (hbindings : p.bindings = fields.filterMap fun f => f.1.map (·.name))
    {b : Binding} (hf : (some b, q) ∈ fields) : isName b.name.toList = true := by
  refine hp.bindings b.name ?_
  rw [hbindings]
  exact List.mem_filterMap.2 ⟨_, hf, rfl⟩

section
variable {names : List String} {nameOf : Nat → String}

theorem lowerFields_cons {outer : List Scope} {own final : Scope} {slots total : Nat}
    {label : Option Source.Name} {p : Source.Pattern} {fs : List Source.Field} {gs : List Field}
    (h : Compile.Clean (Compile.lowerFields names outer own slots ((label, p) :: fs))
      (final, total, gs)) :
    ∃ q b own' slots' rest, Compile.Clean (Compile.lowerPattern names (own :: outer) p) q ∧
      Compile.Clean (Compile.lowerFields names outer own' slots' fs) (final, total, rest) ∧
        gs = (b, q) :: rest := by
  simp only [Compile.lowerFields, Compile.clean_bind] at h
  obtain ⟨q, hq, h⟩ := h
  split at h
  · simp only [Compile.clean_bind, Compile.clean_pure] at h
    obtain ⟨own', -, ⟨_, _, rest⟩, hrest, heq⟩ := h
    cases heq
    exact ⟨q, _, own', _, rest, hq, hrest, rfl⟩
  · simp only [Compile.clean_bind, Compile.clean_pure] at h
    obtain ⟨⟨_, _, rest⟩, hrest, heq⟩ := h
    cases heq
    exact ⟨q, none, own, slots, rest, hq, hrest, rfl⟩

mutual

theorem pattern_legible (hnames : ∀ index < names.length, isName (nameOf index).toList = true) :
    ∀ {p : Source.Pattern} {outer : List Scope} {q : Pattern}, p.WellFormed →
      Compile.Clean (Compile.lowerPattern names outer p) q → (∀ part ∈ q.parts, part.IsReadable) →
        q.IsLegible nameOf
  | .name _ _, _, _, _, h, hread => by
    cases Compile.lowerPattern_clean.1 h with
    | leaf => trivial
    | rule hindex => exact ⟨hnames _ (Compile.ruleIndex?_lt hindex), nofun⟩
  | .literal _ text, _, _, _, h, hread => by
    cases Compile.lowerPattern_clean.1 h with
    | literal =>
      have hpart := hread (.literal text) (List.mem_singleton.2 rfl)
      exact hpart.quoted text (List.mem_singleton.2 rfl)
  | .sequence _ fields none, _, _, .sequence hfields _, h, hread => by
    cases Compile.lowerPattern_clean.1 h with
    | sequence hlowered =>
      have hparts := List.forall_mem_cons.1 hread
      exact fields_legible hnames hfields hlowered hparts.2 fun f hf b hb =>
        hparts.1.binding rfl (b := b) (q := f.2) (by rwa [← Option.mem_def.1 hb])
  | .sequence _ fields (some e), _, _, .sequence hfields haction, h, hread => by
    cases Compile.lowerPattern_clean.1 h with
    | action hlowered hbody =>
      have hparts := List.forall_mem_cons.1 hread
      refine ⟨fields_legible hnames hfields hlowered hparts.2 fun f hf b hb =>
        hparts.1.binding rfl (b := b) (q := f.2) (by rwa [← Option.mem_def.1 hb]), ?_⟩
      exact expr_legible (haction e rfl) hbody hparts.1.constants
  | .repetition _ p, _, _, .repetition hp, h, hread => by
    cases Compile.lowerPattern_clean.1 h with
    | repetition hbody =>
      exact (pattern_legible hnames hp hbody (List.forall_mem_cons.1 hread).2 :)
  | .choice _ ps, _, _, .choice hlength hps, h, hread => by
    cases Compile.lowerPattern_clean.1 h with
    | choice hlowered =>
      have hsame := (Compile.lowerPatterns_clean.1 hlowered).length_eq
      exact ⟨hsame ▸ hlength, patterns_legible hnames hps hlowered (List.forall_mem_cons.1 hread).2⟩
  | .negation _ p, _, _, .negation hp, h, hread => by
    cases Compile.lowerPattern_clean.1 h with
    | negation hbody =>
      exact (pattern_legible hnames hp hbody (List.forall_mem_cons.1 hread).2 :)
  | .rename _ p newName, _, _, _, h, hread => by
    cases Compile.lowerPattern_clean.1 h with
    | renamed hindex =>
      refine ⟨hnames _ (Compile.ruleIndex?_lt hindex), fun text htext => ?_⟩
      have hpart := hread _ (List.mem_singleton.2 rfl)
      exact hpart.quoted text (Option.mem_toList.2 htext)

theorem patterns_legible (hnames : ∀ index < names.length, isName (nameOf index).toList = true) :
    ∀ {ps : List Source.Pattern} {outer : List Scope} {qs : List Pattern},
      (∀ p ∈ ps, p.WellFormed) → Compile.Clean (Compile.lowerPatterns names outer ps) qs →
        (∀ part ∈ Pattern.partsOfAll qs, part.IsReadable) → Pattern.AreLegible nameOf qs
  | [], _, _, _, h, _ => by
    obtain rfl := Compile.clean_pure.1 h
    trivial
  | p :: ps, _, _, hps, h, hread => by
    simp only [Compile.lowerPatterns, Compile.clean_bind, Compile.clean_pure] at h
    obtain ⟨q, hq, qs, hqs, rfl⟩ := h
    have hwell := List.forall_mem_cons.1 hps
    have hparts := List.forall_mem_append.1 hread
    exact ⟨pattern_legible hnames hwell.1 hq hparts.1,
      patterns_legible hnames hwell.2 hqs hparts.2⟩

theorem fields_legible (hnames : ∀ index < names.length, isName (nameOf index).toList = true) :
    ∀ {fs : List (Option Source.Name × Source.Pattern)} {outer : List Scope}
      {own final : Scope} {slots total : Nat} {gs : List Field}, (∀ f ∈ fs, f.2.WellFormed) →
      Compile.Clean (Compile.lowerFields names outer own slots fs) (final, total, gs) →
        (∀ part ∈ Pattern.partsOfFields gs, part.IsReadable) →
        (∀ f ∈ gs, ∀ b ∈ f.1, isName b.name.toList = true) → Pattern.FieldsLegible nameOf gs
  | [], _, _, _, _, _, _, _, h, _, _ => by
    obtain ⟨⟨⟩⟩ := Compile.clean_pure.1 h
    trivial
  | (label, p) :: fs, _, _, _, _, _, _, hfs, h, hread, hbindings => by
    obtain ⟨q, b, _, _, rest, hq, hrest, rfl⟩ := lowerFields_cons h
    have hwell := List.forall_mem_cons.1 hfs
    have hparts := List.forall_mem_append.1 hread
    have hnamed := List.forall_mem_cons.1 hbindings
    exact ⟨hnamed.1, pattern_legible hnames hwell.1 hq hparts.1,
      fields_legible hnames hwell.2 hrest hparts.2 hnamed.2⟩

end

end

/-- What the display of a grammar asks for: its quoted texts and its float constants read back, and
its fields are bound to names. -/
structure Grammar.IsReadable (g : Grammar) : Prop where
  quoted : ∀ text ∈ g.quoted, Text.IsLegible text
  floats : ∀ x ∈ g.floats, Number.IsLegible x
  bindings : ∀ name ∈ g.bindings, isName name.toList = true

theorem Grammar.IsReadable.part {g : Grammar} (h : g.IsReadable) {p : Pattern} (hp : p ∈ g.parts) :
    p.IsReadable where
  quoted text htext :=
    h.quoted text (List.mem_append_left _ (List.mem_flatMap.2 ⟨p, hp, htext⟩))
  bindings name hname := h.bindings name (List.mem_flatMap.2 ⟨p, hp, hname⟩)
  constants v hv := by
    have hconstant : v ∈ g.constants := List.mem_flatMap.2 ⟨p, hp, hv⟩
    cases v with
    | float x => exact h.floats x (List.mem_filterMap.2 ⟨_, hconstant, rfl⟩)
    | str s =>
      exact h.quoted s (List.mem_append_right _ (List.mem_filterMap.2 ⟨_, hconstant, rfl⟩))
    | null | bool | int | list | record => trivial

/-- A grammar that is compiled from a well-formed source is legible if its constants, its quoted
texts and its bindings are. -/
theorem Compile.Compiles.isLegible {file : Source.File} {g : Grammar} (h : Compiles file g)
    (hwell : ∀ r ∈ file.rules, r.WellFormed) (hread : g.IsReadable) : g.IsLegible := by
  have hrules := (lower_clean.1 h.lowered).2.1
  have hname : ∀ r ∈ g.rules, isName r.name.toList = true := by
    intro r hr
    obtain ⟨source, hsource, hresolves⟩ := Compile.exists_of_forall₂_right hrules hr
    rw [hresolves.1]
    exact (hwell source hsource).1
  have hnames : ∀ index < (ruleNames file).length, isName (g.nameOf index).toList = true := by
    intro index hindex
    rw [← h.names, List.length_map] at hindex
    have hnameOf : g.nameOf index = g.rules[index].name := by
      simp [Grammar.nameOf, Grammar.nameIn, hindex]
    rw [hnameOf]
    exact hname _ (List.getElem_mem hindex)
  intro r hr
  obtain ⟨source, hsource, hresolves⟩ := Compile.exists_of_forall₂_right hrules hr
  refine ⟨hname r hr, pattern_legible hnames (hwell source hsource).2 hresolves.2 ?_⟩
  exact fun part hpart => hread.part (List.mem_flatMap.2 ⟨r, hr, hpart⟩)

end TextGrammar
