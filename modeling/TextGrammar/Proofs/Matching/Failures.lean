import Mathlib.Order.Bounds.Basic
import TextGrammar.Proofs.Matching.Reach

/-! # Where a run fails

A run that looks ahead forgets what it came to there. All other places where a leaf or a literal
is not there, or a negation finds its body, are kept in one number, the furthest of them. So a
matcher that yields anything leaves the furthest of the offset that it was started with and of all
offsets where it was rejected on the way: each stage passes on what its parts leave, one part
after the other. -/

namespace TextGrammar.Matching

/-- A matcher yields one result and leaves one state. -/
theorem Yields.unique {α : Type} {m : Matcher α} {s t u : State} {x y : α} (h : Yields m s x t)
    (h' : Yields m s y u) : x = y ∧ t = u := by
  cases h.symm.trans h'
  exact ⟨rfl, rfl⟩

/-- A task that asks for something in the input by itself. -/
def Task.Tests : Task → Prop
  | .pattern _ (.leaf _) | .pattern _ (.literal _) | .pattern _ (.negation _) => True
  | _ => False

/-- A task whose parts look ahead only. -/
def Task.LooksAhead : Task → Prop
  | .pattern _ (.negation _) => True
  | _ => False

section
variable (g : Grammar) (limit : Nat)

def LeadsOn (a b : Stage) : Prop := Leads g limit a b ∧ ¬a.1.LooksAhead

/-- A stage is rejected by the input: a leaf or a literal is not there, or the body of a negation
is. -/
inductive Rejected : Stage → Prop
  | leaf {levels : Nat} {l : Leaf} {s : State} (h : l.read? s.place.rest = none) :
    Rejected (.pattern levels (.leaf l), s)
  | literal {levels : Nat} {text : String} {s : State}
    (h : ¬text.toList.isPrefixOf s.place.rest) : Rejected (.pattern levels (.literal text), s)
  | negation {levels : Nat} {p : Pattern} {s t : State} {c : Capture}
    (h : Yields (matchWithin g limit levels p) s (some c) t) :
    Rejected (.pattern levels (.negation p), s)

/-- The offsets at which a stage comes to one that is rejected, without looking ahead. -/
def rejections (a : Stage) : Set Nat :=
  {o | ∃ b, Relation.ReflTransGen (LeadsOn g limit) a b ∧ Rejected g limit b ∧
    b.2.place.offset = o}

/-- What is left of a stage as the furthest offset: that of the state in which it started, or one
of a rejection. -/
def Leaves (a : Stage) (furthest : Nat) : Prop :=
  IsGreatest (insert a.2.furthest (rejections g limit a)) furthest

end

variable {g : Grammar} {limit : Nat}

/-- The furthest of two sets is that of the second one with the furthest of the first one in it. -/
theorem isGreatest_union {A B : Set Nat} {m n : Nat} (hA : IsGreatest A m)
    (hB : IsGreatest (insert m B) n) : IsGreatest (A ∪ B) n := by
  constructor
  · obtain rfl | hn := hB.1
    · exact .inl hA.1
    · exact .inr hn
  · rintro o (ho | ho)
    · exact (hA.2 ho).trans (hB.2 (Set.mem_insert m B))
    · exact hB.2 (Set.mem_insert_of_mem m ho)

theorem Rejected.tests {a : Stage} (h : Rejected g limit a) : a.1.Tests := by
  cases h <;> trivial

theorem Task.LooksAhead.tests {a : Task} (h : a.LooksAhead) : a.Tests := by
  unfold LooksAhead at h
  split at h
  · trivial
  · cases h

/-- A stage is rejected itself, or one that it leads to comes to a rejection. -/
theorem mem_rejections {a : Stage} {o : Nat} : o ∈ rejections g limit a ↔
    (Rejected g limit a ∧ a.2.place.offset = o) ∨
      ∃ b, LeadsOn g limit a b ∧ o ∈ rejections g limit b := by
  constructor
  · rintro ⟨c, hc, hrejected, hoffset⟩
    obtain rfl | ⟨b, hab, hbc⟩ := Relation.ReflTransGen.cases_head hc
    · exact .inl ⟨hrejected, hoffset⟩
    · exact .inr ⟨b, hab, c, hbc, hrejected, hoffset⟩
  · rintro (⟨hrejected, hoffset⟩ | ⟨b, hab, c, hbc, hrejected, hoffset⟩)
    · exact ⟨a, .refl, hrejected, hoffset⟩
    · exact ⟨c, .head hab hbc, hrejected, hoffset⟩

namespace Leaves
variable {a b c : Stage} {m n : Nat}

/-- A stage that is not rejected and leads to none leaves what it started with. -/
theorem of_silent (h : ¬Rejected g limit a) (hlast : ∀ b, ¬LeadsOn g limit a b) :
    Leaves g limit a a.2.furthest := by
  have hnone : rejections g limit a = ∅ := by
    ext o
    rw [mem_rejections]
    simp [h, hlast]
  rw [Leaves, hnone, insert_empty_eq]
  exact isGreatest_singleton

/-- A stage that is rejected and leads to none leaves the furthest that it has come to. -/
theorem of_rejected (h : Rejected g limit a) (hlast : ∀ b, ¬LeadsOn g limit a b) :
    Leaves g limit a a.2.reach := by
  have hone : rejections g limit a = {a.2.place.offset} := by
    ext o
    rw [mem_rejections]
    simp [h, hlast, eq_comm]
  rw [Leaves, hone, State.reach]
  exact isGreatest_singleton.insert _

/-- A stage that leads to one other leaves what that one does. -/
theorem of_leads (hpasses : ¬a.1.Tests) (hab : Leads g limit a b)
    (hall : ∀ d, Leads g limit a d → d = b) (hb : b.2.furthest = a.2.furthest)
    (h : Leaves g limit b n) : Leaves g limit a n := by
  have heq : rejections g limit a = rejections g limit b := by
    ext o
    rw [mem_rejections]
    constructor
    · rintro (⟨hrejected, -⟩ | ⟨d, had, ho⟩)
      · exact absurd hrejected.tests hpasses
      · rwa [← hall d had.1]
    · exact fun ho => .inr ⟨b, ⟨hab, fun hahead => hpasses hahead.tests⟩, ho⟩
  rwa [Leaves, heq, ← hb]

/-- A stage that leads to one and then to another one leaves what the second one does, which starts
with what the first one left. -/
theorem of_leads_of_leads (hpasses : ¬a.1.Tests) (hab : Leads g limit a b)
    (hac : Leads g limit a c) (hall : ∀ d, Leads g limit a d → d = b ∨ d = c)
    (hb : b.2.furthest = a.2.furthest) (hfirst : Leaves g limit b c.2.furthest)
    (hsecond : Leaves g limit c n) : Leaves g limit a n := by
  have heq : rejections g limit a = rejections g limit b ∪ rejections g limit c := by
    ext o
    rw [mem_rejections]
    constructor
    · rintro (⟨hrejected, -⟩ | ⟨d, had, ho⟩)
      · exact absurd hrejected.tests hpasses
      · obtain rfl | rfl := hall d had.1
        · exact .inl ho
        · exact .inr ho
    · have hon : ¬a.1.LooksAhead := fun hahead => hpasses hahead.tests
      rintro (ho | ho)
      · exact .inr ⟨b, ⟨hab, hon⟩, ho⟩
      · exact .inr ⟨c, ⟨hac, hon⟩, ho⟩
  rw [Leaves, heq, ← hb, ← Set.insert_union]
  exact isGreatest_union hfirst hsecond

end Leaves

/-- Behind its last field a sequence asks for nothing more, also where its action is evaluated. -/
theorem leaves_nil {levels : Nat} {action : Option (Nat × Expr)} {s : State} :
    Leaves g limit (.fields levels [] action, s) s.furthest := by
  cases action with
  | none => exact .of_silent Rejected.tests fun _ h => by cases h.1
  | some action =>
    refine .of_leads id .evaluation ?_ rfl (.of_silent Rejected.tests fun _ h => by cases h.1)
    rintro _ ⟨⟩
    rfl

theorem repeatUpTo_leaves {levels count : Nat} {p : Pattern} {s t : State} {items : List Capture}
    (hbody : ∀ ⦃s c t⦄, Yields (matchWithin g limit levels p) s c t →
      Leaves g limit (.pattern levels p, s) t.furthest)
    (h : Yields (repeatUpTo (matchWithin g limit levels p) count) s items t) :
    Leaves g limit (.rounds levels p count, s) t.furthest := by
  induction count generalizing s items with
  | zero =>
    obtain ⟨-, rfl⟩ := yields_pure.1 h
    exact .of_silent Rejected.tests fun _ h => by cases h.1
  | succ count ih =>
    obtain ⟨c, u, more, hp, hlt, hmore, -⟩ | ⟨c, hp, hidle, -⟩ | ⟨u, hp, -, rfl⟩ :=
      repeatUpTo_yields h
    · refine .of_leads_of_leads id .round (.nextRound hp hlt) (fun d hd => ?_) rfl (hbody hp)
        (ih hmore)
      cases hd with
      | round => exact .inl rfl
      | nextRound hp' _ =>
        obtain ⟨-, rfl⟩ := hp.unique hp'
        exact .inr rfl
    · refine .of_leads id .round (fun d hd => ?_) rfl (hbody hp)
      cases hd with
      | round => rfl
      | nextRound hp' hlt =>
        obtain ⟨-, rfl⟩ := hp.unique hp'
        exact absurd hlt hidle
    · have hleaves := hbody hp
      refine .of_leads id .round (fun d hd => ?_) rfl hleaves
      cases hd with
      | round => rfl
      | nextRound hp' _ => obtain ⟨⟨⟩, -⟩ := hp.unique hp'

/-- A sequence leaves as the furthest offset what its fields left. -/
theorem inFrame_furthest {slots : Nat} {fields : Matcher Bool} {yielded : Matcher Outcome}
    (hyielded : Still yielded) {s t : State} {c : Outcome}
    (h : Yields (inFrame slots fields yielded) s c t) :
    ∃ all u, Yields fields (s.opened slots) all u ∧ t.furthest = u.furthest := by
  obtain ⟨u, u', hu, hc, rfl⟩ | ⟨u, hu, -, rfl⟩ := inFrame_yields h
  · obtain ⟨rfl, -⟩ := hyielded hc
    exact ⟨true, u', hu, rfl⟩
  · exact ⟨false, u, hu, rfl⟩

section
variable {levels : Nat}

mutual

theorem matchPattern_leaves (hcall : ∀ ⦃index s c t⦄,
      Yields (callWithin g limit levels index) s c t →
        Leaves g limit (.call levels index, s) t.furthest) :
    ∀ (p : Pattern) ⦃s c t⦄, Yields (matchWithin g limit levels p) s c t →
      Leaves g limit (.pattern levels p, s) t.furthest
  | .leaf l, s, _, _, h => by
    obtain ⟨x, taken, hread, -, rfl⟩ | ⟨-, rfl, hread⟩ := matchLeaf_yields h
    · refine .of_silent ?_ fun _ h => by cases h.1
      rintro ⟨hnone⟩
      cases hread.symm.trans hnone
    · exact .of_rejected (.leaf hread) fun _ h => by cases h.1
  | .literal text, s, _, _, h => by
    obtain ⟨-, rfl, hfront⟩ | ⟨-, rfl, hfront⟩ := matchLiteral_yields h
    · refine .of_silent ?_ fun _ h => by cases h.1
      rintro (- | ⟨hnot⟩)
      exact hnot hfront
    · exact .of_rejected (.literal hfront) fun _ h => by cases h.1
  | .sequence _ fields, s, _, t, h => by
    obtain ⟨all, u, hfields, hfurthest⟩ := inFrame_furthest (yieldRecord_still fields) h
    rw [hfurthest]
    refine .of_leads id .sequence ?_ rfl (matchFields_leaves hcall fields none hfields)
    rintro _ ⟨⟩
    rfl
  | .action _ fields locals body, _, _, _, h => by
    obtain ⟨all, u, hfields, hfurthest⟩ := inFrame_furthest (yieldValue_still g locals body) h
    rw [hfurthest]
    refine .of_leads id .action ?_ rfl (matchFields_leaves hcall fields _ hfields)
    rintro _ ⟨⟩
    rfl
  | .repetition body, _, _, _, h => by
    obtain ⟨items, hitems, -⟩ := repeatGreedily_yields h
    refine .of_leads id .repetition ?_ rfl
      (repeatUpTo_leaves (matchPattern_leaves hcall body) hitems)
    rintro _ ⟨⟩
    rfl
  | .choice alternatives, _, _, _, h => by
    refine .of_leads id .choice ?_ rfl (matchFirst_leaves hcall alternatives h)
    rintro _ ⟨⟩
    rfl
  | .negation body, _, _, _, h => by
    obtain ⟨found, u, hbody, ⟨-, hfound, rfl⟩ | ⟨-, rfl, rfl⟩⟩ := lookAhead_yields h
    · obtain ⟨x, rfl⟩ := Option.isSome_iff_exists.1 hfound
      exact .of_rejected (.negation hbody) fun _ h => h.2 trivial
    · refine .of_silent ?_ fun _ h => h.2 trivial
      rintro (- | - | ⟨hfound⟩)
      obtain ⟨⟨⟩, -⟩ := hbody.unique hfound
  | .rule _ _, _, _, _, h => by
    refine .of_leads id .rule ?_ rfl (hcall h)
    rintro _ ⟨⟩
    rfl

theorem matchFields_leaves (hcall : ∀ ⦃index s c t⦄,
      Yields (callWithin g limit levels index) s c t →
        Leaves g limit (.call levels index, s) t.furthest) :
    ∀ (fields : List (Option Binding × Pattern)) (action : Option (Nat × Expr)) ⦃s all t⦄,
      Yields (matchFields g (callWithin g limit levels) fields) s all t →
      Leaves g limit (.fields levels fields action, s) t.furthest
  | [], _, _, _, _, h => by
    obtain ⟨-, rfl⟩ := yields_pure.1 h
    exact leaves_nil
  | (b, p) :: rest, action, s, _, _, h => by
    obtain ⟨c, t, hp, hrest⟩ | ⟨hp, -⟩ := matchFields_yields h
    · refine .of_leads_of_leads id .field (.nextField hp) (fun d hd => ?_) rfl ?_
        (matchFields_leaves hcall rest action hrest)
      · cases hd with
        | field => exact .inl rfl
        | nextField hp' =>
          obtain ⟨⟨⟩, rfl⟩ := hp.unique hp'
          exact .inr rfl
      · rw [State.keep_furthest]
        exact matchPattern_leaves hcall p hp
    · refine .of_leads id .field (fun d hd => ?_) rfl (matchPattern_leaves hcall p hp)
      cases hd with
      | field => rfl
      | nextField hp' => obtain ⟨⟨⟩, -⟩ := hp.unique hp'

theorem matchFirst_leaves (hcall : ∀ ⦃index s c t⦄,
      Yields (callWithin g limit levels index) s c t →
        Leaves g limit (.call levels index, s) t.furthest) :
    ∀ (ps : List Pattern) ⦃s c t⦄, Yields (matchFirst g (callWithin g limit levels) ps) s c t →
      Leaves g limit (.first levels ps, s) t.furthest
  | [], _, _, _, h => by
    obtain ⟨-, rfl⟩ := yields_pure.1 h
    exact .of_silent Rejected.tests fun _ h => by cases h.1
  | p :: rest, s, _, _, h => by
    obtain ⟨hsome, hp⟩ | ⟨t, hp, hrest⟩ := matchFirst_yields h
    · refine .of_leads id .alternative (fun d hd => ?_) rfl (matchPattern_leaves hcall p hp)
      cases hd with
      | alternative => rfl
      | nextAlternative hp' =>
        obtain ⟨rfl, -⟩ := hp.unique hp'
        cases hsome
    · have hleaves := matchPattern_leaves hcall p hp
      refine .of_leads_of_leads id .alternative (.nextAlternative hp) (fun d hd => ?_) rfl hleaves
        (matchFirst_leaves hcall rest hrest)
      cases hd with
      | alternative => exact .inl rfl
      | nextAlternative hp' =>
        obtain ⟨-, rfl⟩ := hp.unique hp'
        exact .inr rfl

end

end

/-- A call that yields anything leaves the furthest of the offset that it was started with and of
all offsets where it was rejected. -/
theorem callWithin_leaves {levels index : Nat} {s t : State} {c : Outcome}
    (h : Yields (callWithin g limit levels index) s c t) :
    Leaves g limit (.call levels index, s) t.furthest := by
  induction levels generalizing index s c t with
  | zero =>
    obtain ⟨_, _, -, hlevels, -⟩ := callWithin_yields h
    cases hlevels
  | succ levels ih =>
    obtain ⟨r, left, hr, hlevels, u, hbody, rfl⟩ := callWithin_yields h
    cases hlevels
    have hleaves := matchPattern_leaves (fun _ _ _ _ h => ih h) r.body hbody
    refine .of_leads id (.body hr) (fun d hd => ?_) rfl hleaves
    cases hd with
    | body hr' =>
      cases hr.symm.trans hr'
      rfl

end TextGrammar.Matching
