import TextGrammar.Proofs.Compile.Scopes

/-! # Bindings of compiled sequences

The compiler gives each bound field of a sequence a slot of its own, and refuses to bind two
fields to one name. So no capture takes the place of another one, neither in the frame of the
sequence nor in the record that it yields. -/

namespace TextGrammar

/-- Some bindings have slots and names of their own, and a frame has room for the slots. -/
structure BindingsApart (room : Nat) (bs : List Binding) : Prop where
  slot_lt : ∀ b ∈ bs, b.slot < room
  slots : (bs.map Binding.slot).Nodup
  names : (bs.map Binding.name).Nodup

def bindings (fields : List Field) : List Binding := fields.filterMap Prod.fst

@[simp] theorem bindings_nil : bindings [] = [] := rfl

@[simp] theorem bindings_free (p : Pattern) (fields : List Field) :
    bindings ((none, p) :: fields) = bindings fields := rfl

@[simp] theorem bindings_bound (b : Binding) (p : Pattern) (fields : List Field) :
    bindings ((some b, p) :: fields) = b :: bindings fields := rfl

mutual

def Pattern.Apart : Pattern → Prop
  | .leaf _ | .literal _ | .rule _ _ => True
  | .sequence slots fields | .action slots fields _ _ =>
    BindingsApart slots (bindings fields) ∧ Pattern.FieldsApart fields
  | .repetition p | .negation p => p.Apart
  | .choice alternatives => Pattern.AllApart alternatives

def Pattern.AllApart : List Pattern → Prop
  | [] => True
  | p :: ps => p.Apart ∧ Pattern.AllApart ps

def Pattern.FieldsApart : List (Option Binding × Pattern) → Prop
  | [] => True
  | (_, p) :: rest => p.Apart ∧ Pattern.FieldsApart rest

end

namespace Compile
variable {names : List String}

/-- The fields of a sequence get the slots from a number on, and are bound to names that the
sequence has not bound before. -/
theorem lowerFields_bindings {outer : List Scope} {fields : List Source.Field}
    {own final : Scope} {slots total : Nat} {lowered : List Field}
    (h : Clean (lowerFields names outer own slots fields) (final, total, lowered)) :
    slots ≤ total ∧ BindingsApart total (bindings lowered) ∧
      ∀ b ∈ bindings lowered, slots ≤ b.slot ∧ own.lookup b.name = none := by
  induction fields generalizing own slots lowered with
  | nil =>
    obtain ⟨⟨⟩⟩ := clean_pure.1 h
    exact ⟨Nat.le_refl _, ⟨nofun, List.nodup_nil, List.nodup_nil⟩, nofun⟩
  | cons f rest ih =>
    obtain ⟨label, p⟩ := f
    obtain ⟨q, -, ⟨key, own', more, hkey, hbind, hmore, rfl⟩ | ⟨more, -, hmore, rfl⟩⟩ :=
      lowerFields_cons_clean.1 h
    · obtain ⟨hle, hapart, hfresh⟩ := ih hmore
      have hnamed : key.text ∈ fieldNames (label, p) := (mem_fieldNames hkey key.text).2 (.inl rfl)
      -- A name that is bound later is neither the key nor a name that was there before.
      have hlater : ∀ b ∈ bindings more, b.name ≠ key.text ∧ own.lookup b.name = none := by
        intro b hb
        have hnone := (hfresh b hb).2
        rw [(bindField_clean hkey hbind b.name).1] at hnone
        split at hnone
        · cases hnone
        · rename_i hother
          exact ⟨fun heq => hother (heq ▸ hnamed), hnone⟩
      refine ⟨Nat.le_of_succ_le hle, ⟨?_, ?_, ?_⟩, ?_⟩
      · exact List.forall_mem_cons.2 ⟨hle, hapart.slot_lt⟩
      · refine List.nodup_cons.2 ⟨fun hmem => ?_, hapart.slots⟩
        obtain ⟨b, hb, hslot⟩ := List.mem_map.1 hmem
        have hge := (hfresh b hb).1
        dsimp only at hslot
        omega
      · refine List.nodup_cons.2 ⟨fun hmem => ?_, hapart.names⟩
        obtain ⟨b, hb, hname⟩ := List.mem_map.1 hmem
        exact (hlater b hb).1 hname
      · refine List.forall_mem_cons.2 ⟨⟨Nat.le_refl _, ?_⟩, fun b hb => ?_⟩
        · exact (bindField_clean hkey hbind key.text).2 hnamed
        · exact ⟨Nat.le_of_succ_le (hfresh b hb).1, (hlater b hb).2⟩
    · obtain ⟨hle, hapart, hfresh⟩ := ih hmore
      exact ⟨hle, hapart, hfresh⟩

mutual

theorem lowerPattern_apart : ∀ (p : Source.Pattern) {outer : List Scope} {q : Pattern},
    Clean (lowerPattern names outer p) q → q.Apart
  | .name _ _, _, _, h => by
    cases lowerPattern_clean.1 h <;> exact trivial
  | .literal _ _, _, _, h => by
    cases lowerPattern_clean.1 h
    exact trivial
  | .sequence _ fields none, _, _, h => by
    cases lowerPattern_clean.1 h with
    | sequence hfields =>
      exact ⟨(lowerFields_bindings hfields).2.1, lowerFields_apart fields hfields⟩
  | .sequence _ fields (some _), _, _, h => by
    cases lowerPattern_clean.1 h with
    | action hfields => exact ⟨(lowerFields_bindings hfields).2.1, lowerFields_apart fields hfields⟩
  | .repetition _ body, _, _, h => by
    cases lowerPattern_clean.1 h with
    | repetition hbody =>
      have hapart := lowerPattern_apart body hbody
      exact hapart
  | .choice _ alternatives, _, _, h => by
    cases lowerPattern_clean.1 h with
    | choice hps => exact lowerPatterns_apart alternatives hps
  | .negation _ body, _, _, h => by
    cases lowerPattern_clean.1 h with
    | negation hbody =>
      have hapart := lowerPattern_apart body hbody
      exact hapart
  | .rename _ _ _, _, _, h => by
    cases lowerPattern_clean.1 h
    exact trivial

theorem lowerPatterns_apart : ∀ (ps : List Source.Pattern) {outer : List Scope}
    {qs : List Pattern}, Clean (lowerPatterns names outer ps) qs → Pattern.AllApart qs
  | [], _, _, h => by
    obtain rfl := clean_pure.1 h
    exact trivial
  | p :: ps, _, _, h => by
    simp only [lowerPatterns, clean_bind, clean_pure] at h
    obtain ⟨q, hq, qs, hqs, rfl⟩ := h
    exact ⟨lowerPattern_apart p hq, lowerPatterns_apart ps hqs⟩

theorem lowerFields_apart : ∀ (fields : List (Option Source.Name × Source.Pattern))
    {outer : List Scope} {own final : Scope} {slots total : Nat} {lowered : List Field},
    Clean (lowerFields names outer own slots fields) (final, total, lowered) →
      Pattern.FieldsApart lowered
  | [], _, _, _, _, _, _, h => by
    obtain ⟨⟨⟩⟩ := clean_pure.1 h
    exact trivial
  | (_, p) :: rest, _, _, _, _, _, _, h => by
    obtain ⟨q, hq, ⟨_, _, _, -, -, hmore, rfl⟩ | ⟨_, -, hmore, rfl⟩⟩ :=
      lowerFields_cons_clean.1 h
    · exact ⟨lowerPattern_apart p hq, lowerFields_apart rest hmore⟩
    · exact ⟨lowerPattern_apart p hq, lowerFields_apart rest hmore⟩

end

/-- The bindings of each sequence in a compiled grammar are apart. -/
theorem Compiles.apart {file : Source.File} {g : Grammar} (h : Compiles file g) :
    ∀ r ∈ g.rules, r.body.Apart := by
  intro r hr
  obtain ⟨source, -, -, hbody⟩ := exists_of_forall₂_right (lower_clean.1 h.lowered).2.1 hr
  exact lowerPattern_apart source.body hbody

end Compile

end TextGrammar
