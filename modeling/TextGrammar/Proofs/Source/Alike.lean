import TextGrammar.Proofs.Display.Sources

/-! # Parsers that do the same

Two versions of a parser, which call different parsers for its parts, do the same from a cursor on
if the parts do the same wherever they are called. Where that is, is told by how many tokens have
been read and how many levels of nesting have been entered since. -/

namespace TextGrammar.Source
open Token (Kind)
variable {α β : Type}

/-- A cursor is reached from another one by reading some tokens at least, and is some levels deeper
at least. -/
structure Reached (c : Cursor) (tokens levels : Nat) (d : Cursor) : Prop where
  read : d.rest.length + tokens ≤ c.rest.length
  deeper : c.depth + levels ≤ d.depth

theorem Reached.mono {c d : Cursor} {k l g : Nat} (h : Reached c l g d) (hk : k ≤ l) :
    Reached c k g d :=
  ⟨Nat.le_trans (Nat.add_le_add_left hk _) h.read, h.deeper⟩

theorem Reached.shallower {c d : Cursor} {k g : Nat} (h : Reached c k (g + 1) d) :
    Reached c k g d :=
  ⟨h.read, Nat.le_trans (Nat.le_succ _) h.deeper⟩

theorem Reached.trans {c d e : Cursor} {k l g m : Nat} (h : Reached c k g d)
    (h' : Reached d l m e) : Reached c (l + k) (m + g) e := by
  obtain ⟨hread, hdeeper⟩ := h
  obtain ⟨hread', hdeeper'⟩ := h'
  constructor <;> omega

/-- From some cursors on two parsers do the same, and what they yield is read up to others. -/
structure Alike (P : Cursor → Prop) (p q : Parser α) (Q : α → Cursor → Prop) : Prop where
  same : ∀ ⦃d⦄, P d → p.run d = q.run d
  reaches : ∀ ⦃d x e⦄, P d → Yields q d x e → Q x e

/-- Two parsers do the same from all cursors on that are reached so far, and take nothing back. -/
abbrev Agree (c : Cursor) (k g : Nat) (p q : Parser α) : Prop :=
  Alike (Reached c k g) p q fun _ => Reached c k g

abbrev Move (c : Cursor) (g : Nat) (p q : Parser α) : Prop :=
  Alike (Reached c 0 g) p q fun _ => Reached c 1 g

namespace Alike
variable {P R : Cursor → Prop} {Q : α → Cursor → Prop} {S : β → Cursor → Prop} {p q : Parser α}

theorem pure {x : α} (h : ∀ d, P d → Q x d) : Alike P (pure x) (pure x) Q where
  same _ _ := rfl
  reaches d y e hd hy := by
    obtain ⟨rfl, rfl⟩ := yields_pure.1 hy
    exact h d hd

theorem bind {f g : α → Parser β} (hp : Alike P p q Q) (hf : ∀ x, Alike (Q x) (f x) (g x) S) :
    Alike P (p >>= f) (q >>= g) S where
  same d hd := by
    rw [StateT.run_bind, StateT.run_bind, hp.same hd]
    cases hq : q.run d with
    | error fault => rfl
    | ok result => exact (hf result.1).same (hp.reaches hd hq)
  reaches d y e hd hy := by
    obtain ⟨x, m, hx, hy⟩ := yields_bind.1 hy
    exact (hf x).reaches (hp.reaches hd hx) hy

theorem mono {T : α → Cursor → Prop} (hp : Alike P p q Q) (hR : ∀ d, R d → P d)
    (hT : ∀ x d, Q x d → T x d) : Alike R p q T where
  same d hd := hp.same (hR d hd)
  reaches d x e hd hx := hT x e (hp.reaches (hR d hd) hx)

theorem map {f : α → β} (hp : Alike P p q Q) (hS : ∀ x d, Q x d → S (f x) d) :
    Alike P (f <$> p) (f <$> q) S := by
  rw [map_eq_pure_bind, map_eq_pure_bind]
  exact hp.bind fun x => .pure (hS x)

theorem ite {b : Prop} [Decidable b] {p' q' : Parser α} (hp : Alike P p q Q)
    (hp' : Alike P p' q' Q) : Alike P (if b then p else p') (if b then q else q') Q := by
  split
  · exact hp
  · exact hp'

/-- A parser that yields nothing does the same as itself. -/
theorem of_faults (h : ∀ d x e, ¬Yields p d x e) : Alike P p p Q :=
  ⟨fun _ _ => rfl, fun _ _ _ _ hx => absurd hx (h _ _ _)⟩

end Alike

section
variable {c : Cursor} {k g : Nat} {p q : Parser α}

/-- What a parser does wherever it is called it also does where a token has been read. -/
theorem Move.agree (h : Move c g p q) : Agree c 1 g p q :=
  h.mono (fun _ hd => hd.mono (Nat.zero_le 1)) fun _ _ hd => hd

theorem Agree.map {f : α → β} (h : Agree c k g p q) : Agree c k g (f <$> p) (f <$> q) :=
  Alike.map h fun _ _ hd => hd

/-- A parser that leaves no more tokens behind and is no less deep then takes nothing back. -/
theorem Agree.of_onward
    (h : ∀ d x e, Yields p d x e → e.rest.length ≤ d.rest.length ∧ d.depth ≤ e.depth) :
    Agree c k g p p where
  same _ _ := rfl
  reaches d x e hd hx := by
    obtain ⟨hrest, hdepth⟩ := h d x e hx
    exact ⟨Nat.le_trans (Nat.add_le_add_right hrest k) hd.read, Nat.le_trans hd.deeper hdepth⟩

end

namespace Parser
variable {c : Cursor} {k l g m : Nat} {kind : Kind}

theorem agree_pure {x : α} : Agree c k g (pure x) (pure x) := .pure fun _ hd => hd

theorem agree_unexpected (expected : Expected) :
    Agree c k g (unexpected expected : Parser α) (unexpected expected) :=
  .of_faults fun _ _ _ => nofun

theorem agree_here : Agree c k g here here :=
  .of_onward fun d x e h => by cases h; exact ⟨Nat.le_refl _, Nat.le_refl _⟩

theorem agree_last : Agree c k g last last :=
  .of_onward fun d x e h => by cases h; exact ⟨Nat.le_refl _, Nat.le_refl _⟩

/-- A construct gets the span that ends with the token read last. -/
theorem agree_spanned {start : Span} {f : Span → α} :
    Agree c k g (do return f (← spanFrom start)) (do return f (← spanFrom start)) :=
  (agree_last.bind fun _ => agree_pure).bind fun _ => agree_pure

theorem agree_peekAt (n : Nat) : Agree c k g (peekAt n) (peekAt n) :=
  .of_onward fun d x e h => by cases h; exact ⟨Nat.le_refl _, Nat.le_refl _⟩

theorem agree_peek : Agree c k g peek peek := agree_peekAt 0

theorem agree_at : Agree c k g (at? kind) (at? kind) := agree_peek.bind fun _ => agree_pure

theorem agree_advance : Agree c k g advance advance := by
  refine .of_onward fun d x e h => ?_
  obtain ⟨ts, last, stop, depth⟩ := d
  obtain rfl := yields_modify.1 h
  cases ts with
  | nil => exact ⟨Nat.le_refl _, Nat.le_refl _⟩
  | cons t ts => exact ⟨Nat.le_succ _, Nat.le_refl _⟩

theorem agree_descend : Agree c k g descend descend := by
  refine .of_onward fun d x e h => ?_
  obtain ⟨-, rfl⟩ := yields_descend.1 h
  exact ⟨Nat.le_refl _, Nat.le_succ _⟩

theorem agree_accept : Agree c k g (accept kind) (accept kind) :=
  agree_at.bind fun _ => .ite (agree_advance.bind fun _ => agree_pure) agree_pure

theorem agree_number {t : Token} {negative : Bool} {span : Span} :
    Agree c k g (number t negative span) (number t negative span) := by
  have hthrow {fault : Fault} : Agree c k g (throw fault : Parser Expr) (throw fault) :=
    .of_faults fun _ _ _ => yields_throw
  unfold number
  dsimp only
  split <;> split
  all_goals first
    | exact hthrow
    | exact agree_pure

/-- Where a token is expected, it is read. -/
theorem move_expect : Move c g (expect kind) (expect kind) where
  same _ _ := rfl
  reaches d t e hd ht := by
    obtain ⟨-, ts, hrest, rfl⟩ := yields_expect.1 ht
    have hread := hd.read
    rw [hrest] at hread
    exact ⟨hread, hd.deeper⟩

theorem move_identifier : Move c g identifier identifier :=
  move_expect.bind fun _ => agree_pure

theorem move_string : Move c g string string := by
  refine move_expect.bind fun t => ?_
  split
  · exact agree_pure
  · exact .of_faults fun _ _ _ => yields_throw

structure Seen (c : Cursor) (g : Nat) (k : Option Kind) (d : Cursor) : Prop where
  reached : Reached c 0 g d
  kind : d.rest[0]?.map Token.kind = k

theorem alike_peek : Alike (Reached c 0 g) peek peek (Seen c g) where
  same _ _ := rfl
  reaches d k e hd hk := by
    cases hk
    exact ⟨hd, rfl⟩

theorem alike_at : Alike (Reached c 0 g) (at? kind) (at? kind) fun b d =>
    Reached c 0 g d ∧ (b = true → Seen c g (some kind) d) :=
  alike_peek.bind fun _ => .pure fun _ hd => ⟨hd.reached, fun h => eq_of_beq h ▸ hd⟩

/-- The next token is read if it has been seen. -/
theorem move_seen : Alike (Seen c g (some kind)) advance advance fun _ => Reached c 1 g where
  same _ _ := rfl
  reaches d u e hd hu := by
    obtain ⟨hreached, hkind⟩ := hd
    obtain ⟨ts, last, stop, depth⟩ := d
    obtain rfl := yields_modify.1 hu
    cases ts with
    | nil => cases hkind
    | cons t ts => exact ⟨hreached.read, hreached.deeper⟩

/-- A token that is accepted is read. -/
theorem move_accept :
    Alike (Reached c 0 g) (accept kind) (accept kind) fun b => Reached c b.toNat g := by
  refine alike_at.bind fun b => ?_
  cases b with
  | true =>
    exact (move_seen.mono (fun _ hd => hd.2 rfl) fun _ _ hd => hd).bind fun _ =>
      .pure fun _ hd => hd
  | false => exact .pure fun _ hd => hd.1

/-- What is seen can still be seen behind a step that only looks at tokens. -/
theorem seen_peekAt (n : Nat) {k : Option Kind} :
    Alike (Seen c g k) (peekAt n) (peekAt n) fun _ => Seen c g k where
  same _ _ := rfl
  reaches d x e hd hx := by
    cases hx
    exact hd

theorem alike_descend :
    Alike (Reached c k g) descend descend fun _ => Reached c k (g + 1) where
  same _ _ := rfl
  reaches d u e hd hu := by
    obtain ⟨-, rfl⟩ := yields_descend.1 hu
    exact ⟨hd.read, Nat.succ_le_succ hd.deeper⟩

theorem run_keepDepth (p : Parser α) (d : Cursor) : (keepDepth p).run d =
    (p.run d).map fun result => (result.1, { result.2 with depth := d.depth }) := by
  change Except.bind (p.run d) _ = _
  cases p.run d <;> rfl

theorem alike_keepDepth {p q : Parser α}
    (h : Alike (Reached c k g) p q fun _ => Reached c l m) :
    Alike (Reached c k g) (keepDepth p) (keepDepth q) fun _ => Reached c l g where
  same d hd := by
    rw [run_keepDepth, run_keepDepth, h.same hd]
  reaches d x e hd hx := by
    obtain ⟨f, hf, rfl⟩ := yields_keepDepth.1 hx
    exact ⟨(h.reaches hd hf).read, hd.deeper⟩

theorem alike_nested {p q : Parser α}
    (h : Alike (Reached c k (g + 1)) p q fun _ => Reached c l m) :
    Alike (Reached c k g) (nested p) (nested q) fun _ => Reached c l g :=
  alike_keepDepth (alike_descend.bind fun _ => h)

theorem Seen.alike {p q : Parser α} {Q : α → Cursor → Prop} {k : Option Kind}
    (h : Alike (Reached c 0 g) p q Q) : Alike (Seen c g k) p q Q :=
  h.mono (fun _ hd => hd.reached) fun _ _ hd => hd

theorem agree_manyUpTo {step step' : Parser (Option α)} (h : Agree c k g step step') (n : Nat) :
    Agree c k g (manyUpTo step n) (manyUpTo step' n) := by
  induction n with
  | zero => exact agree_pure
  | succ n ih =>
    refine h.bind fun o => ?_
    cases o with
    | none => exact agree_pure
    | some x => exact ih.bind fun _ => agree_pure

theorem agree_many {step step' : Parser (Option α)} (h : Agree c k g step step') :
    Agree c k g (many step) (many step') := by
  have hget : Agree c k g (get : Parser Cursor) get :=
    .of_onward fun d x e h => by
      obtain ⟨-, rfl⟩ := yields_get.1 h
      exact ⟨Nat.le_refl _, Nat.le_refl _⟩
  exact hget.bind fun start => agree_manyUpTo h _

theorem agree_listUntil {close : Kind} {item item' : Parser α} (h : Agree c 1 g item item') :
    Agree c 1 g (listUntil close item) (listUntil close item') := by
  have hnext : Agree c 1 g (nextItem close item) (nextItem close item') :=
    agree_accept.bind fun _ => .ite (agree_at.bind fun _ => .ite agree_pure
      (h.bind fun _ => agree_pure)) agree_pure
  have hend : ∀ items : List α, Agree c 1 g (do
      let _ ← expect close
      return items) (do
      let _ ← expect close
      return items) :=
    fun items => move_expect.agree.bind fun _ => agree_pure
  exact agree_at.bind fun _ => .ite (agree_pure.bind hend)
    (h.bind fun first => (agree_many hnext).bind fun rest => agree_pure.bind hend)

end Parser

end TextGrammar.Source
