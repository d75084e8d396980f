import TextGrammar.Proofs.Display.Mentions
import TextGrammar.Proofs.Display.Rebinding

/-! # Resolved variables where they are displayed

Names are resolved in scopes that grow like what is written: a declaration is in force behind its
statement, a field behind itself. So a variable that is displayed fits what is written around it. -/

namespace TextGrammar
open Compile

section
variable {X : String → String → Prop}

mutual

theorem Written.Agrees.expr {w : Written} {scopes : List Scope} {locals : Locals}
    (hw : w.Agrees X scopes locals) : ∀ {e : Source.Expr} {lowered : Expr} {n next : Nat},
      Numbers (lowerExpr scopes locals e) n lowered next → ∀ m ∈ lowered.mentions w, m.Fits X
  | .int _ _, _, _, _, h | .float _ _, _, _, _, h | .str _ _, _, _, _, h
  | .bool _ _, _, _, _, h | .null _, _, _, _, h => by
    obtain ⟨rfl, -⟩ := numbers_pure.1 h
    nofun
  | .name span name, _, _, _, h => by
    obtain ⟨-, ⟨l, hl, rfl⟩ | ⟨depth, slot, hlocal, hcapture, rfl⟩⟩ := lowerName_numbers.1 h
    · exact List.forall_mem_singleton.2 (hw.fits_declared hl)
    · exact List.forall_mem_singleton.2 (hw.fits_field hlocal hcapture)
  | .index _ base position, _, _, _, h => by
    simp only [lowerExpr, numbers_bind, numbers_pure] at h
    obtain ⟨b, k, hb, p, _, hp, rfl, rfl⟩ := h
    exact List.forall_mem_append.2 ⟨hw.expr hb, hw.expr hp⟩
  | .field _ base _, _, _, _, h => by
    simp only [lowerExpr, numbers_bind, numbers_pure] at h
    obtain ⟨b, _, hb, rfl, rfl⟩ := h
    exact (hw.expr hb :)
  | .call _ _ arguments, _, _, _, h => by
    simp only [lowerExpr, numbers_bind, numbers_pure] at h
    obtain ⟨es, _, hes, rfl, rfl⟩ := h
    exact hw.exprs hes
  | .binary _ _ lhs rhs, _, _, _, h => by
    simp only [lowerExpr, numbers_bind, numbers_pure] at h
    obtain ⟨a, k, ha, b, _, hb, rfl, rfl⟩ := h
    exact List.forall_mem_append.2 ⟨hw.expr ha, hw.expr hb⟩
  | .list _ items, _, _, _, h => by
    simp only [lowerExpr, numbers_bind, numbers_pure] at h
    obtain ⟨es, _, hes, rfl, rfl⟩ := h
    exact hw.exprs hes
  | .record _ fields, _, _, _, h => by
    simp only [lowerExpr, numbers_bind, numbers_pure] at h
    obtain ⟨es, _, hes, rfl, rfl⟩ := h
    exact hw.record hes
  | .block _ body, _, _, _, h => by
    simp only [lowerExpr, numbers_bind, numbers_pure] at h
    obtain ⟨b, _, hb, rfl, rfl⟩ := h
    exact hw.block hb

theorem Written.Agrees.exprs {w : Written} {scopes : List Scope} {locals : Locals}
    (hw : w.Agrees X scopes locals) :
    ∀ {es : List Source.Expr} {lowered : List Expr} {n next : Nat},
      Numbers (lowerExprs scopes locals es) n lowered next →
      ∀ m ∈ Expr.mentionsOfAll w lowered, m.Fits X
  | [], _, _, _, h => by
    obtain ⟨rfl, -⟩ := numbers_pure.1 h
    nofun
  | e :: es, _, _, _, h => by
    simp only [lowerExprs, numbers_bind, numbers_pure] at h
    obtain ⟨a, k, ha, rest, _, hrest, rfl, rfl⟩ := h
    exact List.forall_mem_append.2 ⟨hw.expr ha, hw.exprs hrest⟩

theorem Written.Agrees.record {w : Written} {scopes : List Scope} {locals : Locals}
    (hw : w.Agrees X scopes locals) {seen : List String} :
    ∀ {fields : List (Source.Name × Source.Expr)} {lowered : List (String × Expr)} {n next : Nat},
      Numbers (lowerRecord scopes locals seen fields) n lowered next →
      ∀ m ∈ Expr.mentionsOfFields w lowered, m.Fits X
  | [], _, _, _, h => by
    obtain ⟨rfl, -⟩ := numbers_pure.1 h
    nofun
  | (name, e) :: rest, _, _, _, h => by
    unfold lowerRecord at h
    split at h
    · simp only [numbers_bind, numbers_report, false_and, exists_false] at h
    · simp only [numbers_bind, numbers_pure] at h
      obtain ⟨a, k, ha, more, _, hmore, rfl, rfl⟩ := h
      exact List.forall_mem_append.2 ⟨hw.expr ha, hw.record hmore⟩

theorem Written.Agrees.block {w : Written} {scopes : List Scope} {locals : Locals}
    (hw : w.Agrees X scopes locals) {inLoop : Bool} :
    ∀ {b : Source.Block} {lowered : Block} {n next : Nat},
      Numbers (lowerBlock scopes locals inLoop b) n lowered next →
      ∀ m ∈ lowered.mentions w, m.Fits X
  | .mk stmts result, _, _, _, h => by
    simp only [lowerBlock, numbers_bind, numbers_pure] at h
    obtain ⟨⟨ss, inner⟩, k, hss, r, _, hr, rfl, rfl⟩ := h
    obtain ⟨hstmts, hinner⟩ := hw.stmts hss
    exact List.forall_mem_append.2 ⟨hstmts, hinner.result hr⟩

theorem Written.Agrees.result {w : Written} {scopes : List Scope} {locals : Locals}
    (hw : w.Agrees X scopes locals) :
    ∀ {e : Option Source.Expr} {lowered : Option Expr} {n next : Nat},
      Numbers (lowerResult scopes locals e) n lowered next →
      ∀ m ∈ Block.mentionsOfResult w lowered, m.Fits X
  | none, _, _, _, h => by
    obtain ⟨rfl, -⟩ := numbers_pure.1 h
    nofun
  | some e, _, _, _, h => by
    simp only [lowerResult, numbers_bind, numbers_pure] at h
    obtain ⟨a, _, ha, rfl, rfl⟩ := h
    exact hw.expr ha

theorem Written.Agrees.otherwise {w : Written} {scopes : List Scope} {locals : Locals}
    (hw : w.Agrees X scopes locals) {inLoop : Bool} :
    ∀ {b : Option Source.Block} {lowered : Option Block} {n next : Nat},
      Numbers (lowerOtherwise scopes locals inLoop b) n lowered next →
      ∀ m ∈ Stmt.mentionsOfOtherwise w lowered, m.Fits X
  | none, _, _, _, h => by
    obtain ⟨rfl, -⟩ := numbers_pure.1 h
    nofun
  | some b, _, _, _, h => by
    simp only [lowerOtherwise, numbers_bind, numbers_pure] at h
    obtain ⟨a, _, ha, rfl, rfl⟩ := h
    exact hw.block ha

theorem Written.Agrees.stmts {scopes : List Scope} {inLoop : Bool} :
    ∀ {w : Written} {locals after : Locals} (_ : w.Agrees X scopes locals)
      {stmts : List Source.Stmt} {lowered : List Stmt} {n next : Nat},
      Numbers (lowerStmts scopes locals inLoop stmts) n (lowered, after) next →
      (∀ m ∈ Stmt.mentionsOfAll w lowered, m.Fits X) ∧
        (lowered.foldl Stmt.after w).Agrees X scopes after
  | _, _, _, hw, [], _, _, _, h => by
    obtain ⟨⟨⟩, -⟩ := numbers_pure.1 h
    exact ⟨nofun, hw⟩
  | _, _, _, hw, s :: rest, _, _, _, h => by
    simp only [lowerStmts, numbers_bind, numbers_pure, Prod.mk.injEq] at h
    obtain ⟨⟨a, inner⟩, k, ha, ⟨more, after⟩, _, hmore, ⟨rfl, rfl⟩, rfl⟩ := h
    obtain ⟨hs, hinner⟩ := hw.stmt ha
    obtain ⟨hrest, hafter⟩ := hinner.stmts hmore
    exact ⟨List.forall_mem_append.2 ⟨hs, hrest⟩, hafter⟩

theorem Written.Agrees.stmt {scopes : List Scope} {inLoop : Bool} :
    ∀ {w : Written} {locals after : Locals} (_ : w.Agrees X scopes locals) {s : Source.Stmt}
      {lowered : Stmt} {n next : Nat},
      Numbers (lowerStmt scopes locals inLoop s) n (lowered, after) next →
      (∀ m ∈ lowered.mentions w, m.Fits X) ∧ (lowered.after w).Agrees X scopes after
  | _, locals, _, hw, .bind _ name mutable value, _, _, _, h => by
    simp only [lowerStmt, numbers_bind, numbers_pure, Prod.mk.injEq] at h
    obtain ⟨a, k, ha, ⟨slot, inner⟩, _, hdeclare, ⟨rfl, rfl⟩, rfl⟩ := h
    obtain ⟨rfl, rfl, rfl⟩ := numbers_declareLocal.1 hdeclare
    exact ⟨hw.expr ha, hw.declare name.text slot mutable⟩
  | _, locals, _, hw, .assign _ name mode value, _, _, _, h => by
    simp only [lowerStmt, numbers_bind, numbers_pure, Prod.mk.injEq] at h
    obtain ⟨a, k, ha, slot, _, hslot, ⟨rfl, rfl⟩, rfl⟩ := h
    obtain ⟨rfl, l, hl, -, rfl⟩ := assignedSlot_numbers.1 hslot
    exact ⟨List.forall_mem_cons.2 ⟨hw.fits_declared hl, hw.expr ha⟩, hw⟩
  | _, locals, _, hw, .loop _ name start stop body, _, _, _, h => by
    simp only [lowerStmt, numbers_bind, numbers_pure, Prod.mk.injEq] at h
    obtain ⟨a, k, ha, b, l, hb, ⟨slot, inner⟩, _, hdeclare, c, _, hc, ⟨rfl, rfl⟩, rfl⟩ := h
    obtain ⟨rfl, rfl, rfl⟩ := numbers_declareLocal.1 hdeclare
    have hbounds := List.forall_mem_append.2 ⟨hw.expr ha, hw.expr hb⟩
    have hbody := (hw.declare name.text slot false).block hc
    exact ⟨List.forall_mem_append.2 ⟨hbounds, hbody⟩, hw⟩
  | _, locals, _, hw, .branch _ condition yes no, _, _, _, h => by
    simp only [lowerStmt, numbers_bind, numbers_pure, Prod.mk.injEq] at h
    obtain ⟨a, k, ha, b, l, hb, c, _, hc, ⟨rfl, rfl⟩, rfl⟩ := h
    have hyes := List.forall_mem_append.2 ⟨hw.expr ha, hw.block hb⟩
    exact ⟨List.forall_mem_append.2 ⟨hyes, hw.otherwise hc⟩, hw⟩
  | _, locals, _, hw, .leave span, _, _, _, h => by
    unfold lowerStmt at h
    split at h
    · simp only [numbers_bind, numbers_report, false_and, exists_false] at h
    · obtain ⟨⟨⟩, -⟩ := numbers_pure.1 h
      exact ⟨nofun, hw⟩

end

/-- An override name replaces the label of its field, if that is another name. -/
def Source.Replaces (X : String → String → Prop) (f : Source.Field) : Prop :=
  ∀ label ∈ f.1, ∀ newName ∈ f.2.rename?, newName.text ≠ label.text → X label.text newName.text

theorem shows_nil : Shows X [] [] := ⟨nofun, nofun, nofun⟩

/-- A name other than the key under which a field is found is a label with an override name. -/
theorem replaced_of_mem_fieldNames {f : Source.Field} {key : Source.Name}
    (hreplaces : Source.Replaces X f) (hkey : bindingKey? f = some key) {name : String}
    (hmem : name ∈ fieldNames f) (hne : name ≠ key.text) : X name key.text := by
  obtain hname | ⟨label, hlabel, rfl⟩ := (mem_fieldNames hkey name).1 hmem
  · exact absurd hname hne
  · unfold bindingKey? at hkey
    rw [hlabel] at hkey
    cases hrename : f.2.rename? with
    | none =>
      rw [hrename] at hkey
      cases hkey
      exact absurd rfl hne
    | some newName =>
      rw [hrename] at hkey
      cases hkey
      exact hreplaces label hlabel key hrename hne.symm

/-- A bound field is written with its key in front. -/
theorem Shows.bind {shown scope after : Scope} {f : Source.Field} {key : Source.Name} {slot : Nat}
    (h : Shows X shown scope) (hbelow : ∀ name other, shown.lookup name = some other → other < slot)
    (hreplaces : Source.Replaces X f) (hkey : bindingKey? f = some key)
    (hbind : Clean (bindField scope key f.1 slot) after) :
    Shows X ((key.text, slot) :: shown) after := by
  have hown : key.text ∈ fieldNames f := (mem_fieldNames hkey _).2 (.inl rfl)
  -- The names of the field are new, so nothing that was shown is hidden.
  have hold : ∀ name other, shown.lookup name = some other → name ∉ fieldNames f := by
    intro name other hname hmem
    have hnone := (bindField_clean hkey hbind name).2 hmem
    rw [h.sound name other hname] at hnone
    cases hnone
  have hkept : ∀ name other, shown.lookup name = some other →
      List.lookup name ((key.text, slot) :: shown) = some other := by
    intro name other hname
    have hne : name ≠ key.text := by
      rintro rfl
      exact hold _ other hname hown
    rw [lookup_cons, if_neg hne, hname]
  constructor
  case sound =>
    intro name other hname
    rw [(bindField_clean hkey hbind name).1]
    rw [lookup_cons] at hname
    split at hname
    · rename_i heq
      rw [heq, if_pos hown, hname]
    · rw [if_neg (hold name other hname), h.sound name other hname]
  case complete =>
    intro name other hname
    rw [(bindField_clean hkey hbind name).1] at hname
    split at hname
    · rename_i hmem
      cases hname
      by_cases heq : name = key.text
      · exact .inl (by rw [lookup_cons, if_pos heq])
      · exact .inr ⟨key.text, replaced_of_mem_fieldNames hreplaces hkey hmem heq,
          by rw [lookup_cons, if_pos rfl]⟩
    · obtain hshown | ⟨other, hother, hshown⟩ := h.complete name other hname
      · exact .inl (hkept _ _ hshown)
      · exact .inr ⟨other, hother, hkept _ _ hshown⟩
  case once =>
    intro name other found hname hother
    rw [lookup_cons] at hname hother
    split at hname <;> split at hother
    · exact ‹name = _›.trans ‹other = _›.symm
    · cases hname
      exact absurd (hbelow _ _ hother) (Nat.lt_irrefl _)
    · cases hother
      exact absurd (hbelow _ _ hname) (Nat.lt_irrefl _)
    · exact h.once _ _ _ hname hother

variable {names : List String}

mutual

theorem pattern_mentions (apart : ∀ name key, X name key → key ≠ name) :
    ∀ {p : Source.Pattern} {q : Pattern} {written outer : List Scope},
      Clean (lowerPattern names outer p) q → List.Forall₂ (Shows X) written outer →
      (∀ f ∈ p.fields, Source.Replaces X f) → ∀ m ∈ q.mentions written, m.Fits X
  | .name _ _, _, _, _, h, _, _ => by
    cases lowerPattern_clean.1 h <;> nofun
  | .literal _ _, _, _, _, h, _, _ => by
    cases lowerPattern_clean.1 h
    nofun
  | .rename _ _ newName, _, _, _, h, _, _ => by
    cases lowerPattern_clean.1 h
    nofun
  | .repetition _ p, _, _, _, h, hwritten, hfields => by
    cases lowerPattern_clean.1 h with
    | repetition hp => exact (pattern_mentions apart hp hwritten hfields :)
  | .negation _ p, _, _, _, h, hwritten, hfields => by
    cases lowerPattern_clean.1 h with
    | negation hp => exact (pattern_mentions apart hp hwritten hfields :)
  | .choice _ alternatives, _, _, _, h, hwritten, hfields => by
    cases lowerPattern_clean.1 h with
    | choice hps => exact patterns_mentions apart hps hwritten hfields
  | .sequence _ fields _, _, _, _, h, hwritten, hfields => by
    cases lowerPattern_clean.1 h with
    | sequence hlowered =>
      exact (fields_mentions apart hlowered hwritten shows_nil nofun hfields).1
    | action hlowered hbody =>
      obtain ⟨hmentions, hshows⟩ :=
        fields_mentions apart hlowered hwritten shows_nil nofun hfields
      refine List.forall_mem_append.2 ⟨hmentions, Written.Agrees.expr ?_ hbody⟩
      exact ⟨fun _ => rfl, .cons hshows hwritten, apart⟩

theorem patterns_mentions (apart : ∀ name key, X name key → key ≠ name) :
    ∀ {ps : List Source.Pattern} {qs : List Pattern} {written outer : List Scope},
      Clean (lowerPatterns names outer ps) qs → List.Forall₂ (Shows X) written outer →
      (∀ f ∈ Source.Pattern.fieldsOfAll ps, Source.Replaces X f) →
      ∀ m ∈ Pattern.mentionsOfAll written qs, m.Fits X
  | [], _, _, _, h, _, _ => by
    obtain rfl := clean_pure.1 h
    nofun
  | p :: ps, _, _, _, h, hwritten, hfields => by
    simp only [lowerPatterns, clean_bind, clean_pure] at h
    obtain ⟨q, hq, qs, hqs, rfl⟩ := h
    obtain ⟨hfirst, hrest⟩ := List.forall_mem_append.1 hfields
    exact List.forall_mem_append.2
      ⟨pattern_mentions apart hq hwritten hfirst, patterns_mentions apart hqs hwritten hrest⟩

theorem fields_mentions (apart : ∀ name key, X name key → key ≠ name) :
    ∀ {fs : List (Option Source.Name × Source.Pattern)} {gs : List Field}
      {written outer : List Scope} {shown own final : Scope} {slots total : Nat},
      Clean (lowerFields names outer own slots fs) (final, total, gs) →
      List.Forall₂ (Shows X) written outer → Shows X shown own →
      (∀ name slot, shown.lookup name = some slot → slot < slots) →
      (∀ f ∈ Source.Pattern.fieldsWithin fs, Source.Replaces X f) →
      (∀ m ∈ Pattern.mentionsOfFields written shown gs, m.Fits X) ∧
        Shows X (gs.foldl Field.behind shown) final
  | [], _, _, _, _, _, _, _, _, h, _, hshows, _, _ => by
    obtain ⟨⟨⟩⟩ := clean_pure.1 h
    exact ⟨nofun, hshows⟩
  | (label, p) :: fs, _, _, _, _, _, _, _, _, h, hwritten, hshows, hbelow, hfields => by
    obtain ⟨hreplaces, hfields⟩ := List.forall_mem_cons.1 hfields
    obtain ⟨hfirst, hrest⟩ := List.forall_mem_append.1 hfields
    obtain ⟨q, hq, ⟨key, own', more, hkey, hbind, hmore, rfl⟩ | ⟨more, -, hmore, rfl⟩⟩ :=
      lowerFields_cons_clean.1 h
    · have hmentions := pattern_mentions apart hq (.cons hshows hwritten) hfirst
      have hbound := hshows.bind hbelow hreplaces hkey hbind
      obtain ⟨hlater, hfinal⟩ := fields_mentions apart hmore hwritten hbound
        (fun name slot hname => by
          rw [lookup_cons] at hname
          split at hname
          · cases hname
            exact Nat.lt_succ_self _
          · exact Nat.lt_succ_of_lt (hbelow name slot hname)) hrest
      exact ⟨List.forall_mem_append.2 ⟨hmentions, hlater⟩, hfinal⟩
    · have hmentions := pattern_mentions apart hq (.cons hshows hwritten) hfirst
      obtain ⟨hlater, hfinal⟩ := fields_mentions apart hmore hwritten hshows hbelow hrest
      exact ⟨List.forall_mem_append.2 ⟨hmentions, hlater⟩, hfinal⟩

end

end

end TextGrammar
