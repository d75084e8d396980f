import TextGrammar.Proofs.Syntax.Bare
import TextGrammar.Proofs.Syntax.Taking

/-! # Parsers that accept given marks

What a parser does in front of given marks is read off its parts, with the depth of the cursor. It
gives up because of the nesting only if more levels are asked for than the limit allows. -/

namespace TextGrammar.Source
open Token (Kind)
variable {α β : Type}

/-- Where a cursor stands: how deep it is nested, and in front of which marks. -/
structure View where
  depth : Nat
  marks : List Mark

def Cursor.view (c : Cursor) : View := ⟨c.depth, c.marks⟩

/-- A parser goes from one view to another with a result that satisfies `Q`. It may find that the
source is nested too deep if the depth `top` is beyond the limit. -/
def Accepts (top : Nat) (p : Parser α) (v v' : View) (Q : α → Prop) : Prop :=
  ∀ c : Cursor, c.view = v →
    (nestingLimit < top ∧ ∃ span, Faults p c ⟨span, .nestingTooDeep⟩) ∨
      ∃ x c', Yields p c x c' ∧ c'.view = v' ∧ Q x

namespace Accepts
variable {top : Nat} {u v w : View} {p : Parser α} {P Q : α → Prop}

theorem pure {x : α} (h : Q x) : Accepts top (pure x) v v Q :=
  fun c hc => .inr ⟨x, c, yields_pure.2 ⟨rfl, rfl⟩, hc, h⟩

theorem bind {f : α → Parser β} {R : β → Prop} (hp : Accepts top p u v P)
    (hf : ∀ x, P x → Accepts top (f x) v w R) : Accepts top (p >>= f) u w R := by
  intro c hc
  rcases hp c hc with ⟨htop, span, hfault⟩ | ⟨x, d, hx, hd, hP⟩
  · exact .inl ⟨htop, span, faults_bind.2 (.inl hfault)⟩
  · rcases hf x hP d hd with ⟨htop, span, hfault⟩ | ⟨y, e, hy, he, hR⟩
    · exact .inl ⟨htop, span, faults_bind.2 (.inr ⟨x, d, hx, hfault⟩)⟩
    · exact .inr ⟨y, e, yields_bind.2 ⟨x, d, hx, hy⟩, he, hR⟩

theorem pure_bind {x : α} {f : α → Parser β} {R : β → Prop} (h : Accepts top (f x) v w R) :
    Accepts top (Pure.pure x >>= f) v w R :=
  (pure (Q := (x = ·)) rfl).bind fun _ hx => hx ▸ h

theorem weaken (hp : Accepts top p v w P) (h : ∀ x, P x → Q x) : Accepts top p v w Q := by
  intro c hc
  rcases hp c hc with hfault | ⟨x, d, hx, hd, hP⟩
  · exact .inl hfault
  · exact .inr ⟨x, d, hx, hd, h x hP⟩

theorem map {f : α → β} {R : β → Prop} (hp : Accepts top p v w P) (h : ∀ x, P x → R (f x)) :
    Accepts top (f <$> p) v w R := by
  rw [map_eq_pure_bind]
  exact hp.bind fun x hx => .pure (h x hx)

theorem tooDeep (h : nestingLimit < top) :
    Accepts top (Parser.fail .nestingTooDeep) v w Q :=
  fun c _ => .inl ⟨h, c.here, rfl⟩

end Accepts

namespace Parser
variable {top d d' : Nat} {v v' : View} {ws rest : List Mark} {kind : Kind} {m : Mark}

theorem accepts_here : Accepts top here v v fun _ => True :=
  fun c hc => .inr ⟨c.here, c, rfl, hc, trivial⟩

theorem accepts_last : Accepts top last v v fun _ => True :=
  fun c hc => .inr ⟨c.last, c, rfl, hc, trivial⟩

theorem accepts_spanFrom (start : Span) : Accepts top (spanFrom start) v v fun _ => True :=
  fun c hc => .inr ⟨start.join c.last, c, rfl, hc, trivial⟩

/-- The end of a parser that gives what it has read the span of its tokens. -/
theorem accepts_spanned {start : Span} {f : Span → α} {Q : α → Prop} (h : ∀ span, Q (f span)) :
    Accepts top (do return f (← spanFrom start)) v v Q :=
  (accepts_spanFrom start).bind fun span _ => .pure (h span)

theorem accepts_peekAt (n : Nat) :
    Accepts top (peekAt n) v v fun k => k = v.marks[n]?.map Mark.kind := by
  rintro c rfl
  exact .inr ⟨_, c, rfl, rfl, (c.kind_marks n).symm⟩

theorem accepts_peek : Accepts top peek v v fun k => k = frontKind v.marks := by
  rw [frontKind, List.head?_eq_getElem?]
  exact accepts_peekAt 0

theorem accepts_at : Accepts top (at? kind) v v fun b => b = (frontKind v.marks == some kind) :=
  accepts_peek.bind fun k hk => .pure (by rw [hk])

theorem accepts_at_other (h : frontKind v.marks ≠ some kind) :
    Accepts top (at? kind) v v fun b => b = false :=
  accepts_at.weaken fun _ hb => hb.trans (beq_eq_false_iff_ne.2 h)

theorem accepts_advance : Accepts top advance ⟨d, m :: ws⟩ ⟨d, ws⟩ fun _ => True := by
  rintro ⟨ts, last, stop, depth⟩ hc
  obtain ⟨rfl, hmarks⟩ := View.mk.inj hc
  cases ts with
  | nil => cases hmarks
  | cons t ts =>
    refine .inr ⟨(), ⟨ts, t.span, stop, depth⟩, rfl, ?_, trivial⟩
    exact congrArg (View.mk depth) (List.cons.inj hmarks).2

theorem accepts_accept (h : m.kind = kind) :
    Accepts top (accept kind) ⟨d, m :: ws⟩ ⟨d, ws⟩ fun b => b = true := by
  refine accepts_at.bind ?_
  rintro _ rfl
  rw [frontKind_cons, h, beq_self_eq_true, if_pos rfl]
  exact accepts_advance.bind fun _ _ => .pure rfl

theorem accepts_accept_other (h : frontKind v.marks ≠ some kind) :
    Accepts top (accept kind) v v fun b => b = false := by
  refine (accepts_at_other h).bind ?_
  rintro _ rfl
  exact .pure rfl

theorem accepts_expect (h : m.kind = kind) :
    Accepts top (expect kind) ⟨d, m :: ws⟩ ⟨d, ws⟩ fun t => t.mark = m := by
  rintro ⟨ts, last, stop, depth⟩ hc
  obtain ⟨rfl, hmarks⟩ := View.mk.inj hc
  cases ts with
  | nil => cases hmarks
  | cons t ts =>
    obtain ⟨ht, hts⟩ := List.cons.inj hmarks
    refine .inr ⟨t, ⟨ts, t.span, stop, depth⟩, ?_, congrArg (View.mk depth) hts, ht⟩
    exact if_pos (by rw [← t.kind_mark, ht, h])

theorem accepts_identifier {text : String} :
    Accepts top identifier ⟨d, .name text :: ws⟩ ⟨d, ws⟩ fun n => n.bare = ⟨text, noSpan⟩ := by
  refine (accepts_expect rfl).bind fun t ht => .pure ?_
  have hkind : t.kind = .identifier := by rw [← t.kind_mark, ht]; rfl
  simp only [Token.mark, hkind] at ht
  cases ht
  rfl

theorem accepts_string {text : String} :
    Accepts top string ⟨d, .string text :: ws⟩ ⟨d, ws⟩ fun n => n.bare = ⟨text, noSpan⟩ := by
  refine (accepts_expect rfl).bind fun t ht => ?_
  have hkind : t.kind = .string := by rw [← t.kind_mark, ht]; rfl
  simp only [Token.mark, hkind] at ht
  split at ht
  · rename_i decoded hdecode
    cases ht
    rw [hdecode]
    exact .pure rfl
  · cases ht

theorem accepts_number {negative : Bool} {digits : List Char} {e : Expr}
    (h : Numeral negative digits e) {t : Token} (ht : t.mark = .number digits) (span : Span) :
    Accepts top (number t negative span) v v fun x => x.bare = e.bare := by
  have hkind : t.kind = .number := by rw [← t.kind_mark, ht]; rfl
  simp only [Token.mark, hkind] at ht
  cases ht
  cases h with
  | int hpoint hread =>
    simp only [number, hpoint, hread, Bool.false_eq_true, if_false]
    exact .pure rfl
  | float hpoint hread =>
    simp only [number, hpoint, hread, if_true]
    exact .pure rfl

/-- A level that is asked for is there, or beyond the limit. -/
theorem accepts_descend (h : d < top) :
    Accepts top descend ⟨d, ws⟩ ⟨d + 1, ws⟩ fun _ => True := by
  intro c hc
  obtain ⟨rfl, hmarks⟩ := View.mk.inj hc
  by_cases hdepth : c.depth < nestingLimit
  · refine .inr ⟨(), { c with depth := c.depth + 1 }, if_pos hdepth, ?_, trivial⟩
    exact congrArg (View.mk _) hmarks
  · exact .inl ⟨by omega, c.here, if_neg hdepth⟩

theorem accepts_keepDepth {p : Parser α} {Q : α → Prop}
    (hp : Accepts top p ⟨d, ws⟩ ⟨d', rest⟩ Q) :
    Accepts top (keepDepth p) ⟨d, ws⟩ ⟨d, rest⟩ Q := by
  have hget : Accepts top (get : Parser Cursor) ⟨d, ws⟩ ⟨d, ws⟩ fun c => c.depth = d :=
    fun c hc => .inr ⟨c, c, rfl, hc, congrArg View.depth hc⟩
  have hset : Accepts top (modify fun c => { c with depth := d } : Parser Unit) ⟨d', rest⟩
      ⟨d, rest⟩ fun _ => True :=
    fun c hc => .inr ⟨(), { c with depth := d }, rfl,
      congrArg (View.mk d) (congrArg View.marks hc), trivial⟩
  refine hget.bind ?_
  rintro c rfl
  exact hp.bind fun x hx => hset.bind fun _ _ => .pure hx

/-- What is nested is accepted if it is accepted one level deeper. -/
theorem accepts_nested {p : Parser α} {Q : α → Prop} (hd : d < top)
    (hp : Accepts top p ⟨d + 1, ws⟩ ⟨d', rest⟩ Q) :
    Accepts top (nested p) ⟨d, ws⟩ ⟨d, rest⟩ Q :=
  accepts_keepDepth ((accepts_descend hd).bind fun _ _ => hp)

/-- A step goes from one view to another that has fewer marks, and yields something for it. -/
def AcceptsOne (top : Nat) (step : Parser (Option α)) (v v' : View) (P : α → Prop) : Prop :=
  v'.marks.length < v.marks.length ∧
    Accepts top step v v' fun o => ∃ x, o = some x ∧ P x

def AcceptsMany (top : Nat) (step : Parser (Option α)) (v v' : View) (Q : List α → Prop) : Prop :=
  ∀ n, v.marks.length < n → Accepts top (manyUpTo step n) v v' Q

namespace AcceptsMany
variable {w : View} {step : Parser (Option α)} {Q : List α → Prop}

theorem weaken {P : List α → Prop} (h : AcceptsMany top step v v' P) (hPQ : ∀ xs, P xs → Q xs) :
    AcceptsMany top step v v' Q :=
  fun n hn => (h n hn).weaken hPQ

theorem stop (h : Accepts top step v v' fun x => x = none) (hQ : Q []) :
    AcceptsMany top step v v' Q := by
  intro n hn
  cases n with
  | zero => cases hn
  | succ n =>
    refine h.bind ?_
    rintro _ rfl
    exact .pure hQ

theorem more {P : α → Prop} (h : AcceptsOne top step v w P)
    (hmore : ∀ x, P x → AcceptsMany top step w v' fun xs => Q (x :: xs)) :
    AcceptsMany top step v v' Q := by
  obtain ⟨hlt, h⟩ := h
  intro n hn
  cases n with
  | zero => cases hn
  | succ n =>
    refine h.bind ?_
    rintro _ ⟨x, rfl, hx⟩
    exact (hmore x hx n (by omega)).bind fun xs hxs => .pure hxs

end AcceptsMany

theorem accepts_many {step : Parser (Option α)} {Q : List α → Prop}
    (h : AcceptsMany top step v v' Q) : Accepts top (many step) v v' Q := by
  rintro c rfl
  have hlength : c.marks.length < c.rest.length + 1 := by simp [Cursor.marks]
  rcases h _ hlength c rfl with ⟨htop, span, hfault⟩ | ⟨xs, d, hxs, hd, hQ⟩
  · exact .inl ⟨htop, span, faults_bind.2 (.inr ⟨c, c, rfl, hfault⟩)⟩
  · exact .inr ⟨xs, d, yields_bind.2 ⟨c, c, rfl, hxs⟩, hd, hQ⟩

section
variable {close : Symbol} {item : Parser α} {bare : α → α} {x : α} {xs : List α}
  {ws' : List Mark} {items : List (List Mark)}

/-- An item is accepted in front of a comma or of the end of its list, and starts otherwise than
the end does. -/
def AcceptsItem (top d : Nat) (close : Symbol) (item : Parser α) (bare : α → α) (x : α)
    (ws : List Mark) : Prop :=
  (∃ m ws', ws = m :: ws' ∧ m.kind ≠ .symbol close) ∧
    ∀ rest, frontKind rest = some (.symbol .comma) ∨ frontKind rest = some (.symbol close) →
      Accepts top item ⟨d, ws ++ rest⟩ ⟨d, rest⟩ fun y => bare y = bare x

theorem AcceptsItem.front (h : AcceptsItem top d close item bare x ws) (rest : List Mark) :
    frontKind (ws ++ rest) ≠ some (.symbol close) := by
  obtain ⟨⟨m, ws', rfl, hm⟩, -⟩ := h
  exact fun heq => hm (Option.some.inj heq)

theorem accepts_noItem (hclose : close ≠ .comma) :
    Accepts top (nextItem (.symbol close) item) ⟨d, .symbol close :: rest⟩
      ⟨d, .symbol close :: rest⟩ fun o => o = none := by
  refine (accepts_accept_other ?_).bind ?_
  · exact fun h => hclose (Kind.symbol.inj (Option.some.inj h))
  · rintro _ rfl
    exact .pure rfl

/-- The items behind a comma. -/
theorem acceptsMany_nextItem (hclose : close ≠ .comma) (hws : Listed items ws)
    (hlength : xs.length = items.length)
    (hitems : ∀ x ∈ xs.zip items, AcceptsItem top d close item bare x.1 x.2) :
    AcceptsMany top (nextItem (.symbol close) item)
      ⟨d, .symbol .comma :: (ws ++ .symbol close :: rest)⟩ ⟨d, .symbol close :: rest⟩
      fun ys => ys.map bare = xs.map bare := by
  have hstep : ∀ {x ws rest'}, AcceptsItem top d close item bare x ws →
      frontKind rest' = some (.symbol .comma) ∨ frontKind rest' = some (.symbol close) →
      AcceptsOne top (nextItem (.symbol close) item) ⟨d, .symbol .comma :: (ws ++ rest')⟩ ⟨d, rest'⟩
        fun y => bare y = bare x := by
    intro x ws rest' hx hrest
    refine ⟨?_, (accepts_accept rfl).bind ?_⟩
    · simp only [List.length_cons, List.length_append]
      omega
    rintro _ rfl
    refine (accepts_at_other (hx.front rest')).bind ?_
    rintro _ rfl
    exact (hx.2 rest' hrest).bind fun y hy => .pure ⟨y, rfl, hy⟩
  induction hws generalizing xs with
  | nil =>
    obtain rfl := List.length_eq_zero_iff.1 hlength
    refine .stop ((accepts_accept rfl).bind ?_) rfl
    rintro _ rfl
    refine accepts_at.bind ?_
    rintro _ rfl
    rw [List.nil_append, frontKind_cons]
    simp only [Mark.kind, beq_self_eq_true, if_true]
    exact .pure rfl
  | last =>
    obtain ⟨x, rfl⟩ := List.length_eq_one_iff.1 hlength
    refine .more (hstep (hitems (x, _) List.mem_cons_self) (.inr rfl)) fun y hy => ?_
    exact .stop (accepts_noItem hclose) (congrArg (· :: []) hy)
  | @more ws₁ ws₂ items _ ih =>
    obtain ⟨x, xs, rfl⟩ := List.exists_cons_of_length_eq_add_one hlength
    obtain ⟨hfirst, hrest⟩ := List.forall_mem_cons.1 hitems
    rw [List.append_assoc]
    refine .more (hstep hfirst (.inl rfl)) fun y hy => ?_
    refine (ih (Nat.succ.inj hlength) hrest).weaken fun ys hys => ?_
    rw [List.map_cons, List.map_cons, hy, hys]

/-- Items with commas between them are accepted one by one, and then the end of their list. -/
theorem accepts_listUntil (hclose : close ≠ .comma) (hws : Listed items ws)
    (hlength : xs.length = items.length)
    (hitems : ∀ x ∈ xs.zip items, AcceptsItem top d close item bare x.1 x.2) :
    Accepts top (listUntil (.symbol close) item) ⟨d, ws ++ .symbol close :: rest⟩ ⟨d, rest⟩
      fun ys => ys.map bare = xs.map bare := by
  have hend : ∀ ys : List α, ys.map bare = xs.map bare →
      Accepts top (do
        let _ ← expect (.symbol close)
        return ys) ⟨d, .symbol close :: rest⟩ ⟨d, rest⟩ fun ys => ys.map bare = xs.map bare :=
    fun ys hys => (accepts_expect rfl).bind fun _ _ => .pure hys
  refine accepts_at.bind ?_
  rintro _ rfl
  cases hws with
  | nil =>
    obtain rfl := List.length_eq_zero_iff.1 hlength
    rw [List.nil_append, frontKind_cons]
    simp only [Mark.kind, beq_self_eq_true, if_true]
    exact .pure_bind (hend [] rfl)
  | last =>
    obtain ⟨x, rfl⟩ := List.length_eq_one_iff.1 hlength
    have hfirst := hitems (x, ws) List.mem_cons_self
    rw [beq_eq_false_iff_ne.2 (hfirst.front _)]
    refine (hfirst.2 _ (.inr rfl)).bind fun y hy => ?_
    refine (accepts_many (.stop (accepts_noItem hclose) (Q := fun ys => ys = []) rfl)).bind ?_
    rintro _ rfl
    exact .pure_bind (hend [y] (congrArg (· :: []) hy))
  | @more ws₁ ws₂ items hws =>
    obtain ⟨x, xs, rfl⟩ := List.exists_cons_of_length_eq_add_one hlength
    obtain ⟨hfirst, hrest⟩ := List.forall_mem_cons.1 hitems
    rw [List.append_assoc, beq_eq_false_iff_ne.2 (hfirst.front _)]
    refine (hfirst.2 _ (.inl rfl)).bind fun y hy => ?_
    refine (accepts_many (acceptsMany_nextItem hclose hws (Nat.succ.inj hlength)
      hrest)).bind fun ys hys => ?_
    exact .pure_bind (hend (y :: ys) (by rw [List.map_cons, List.map_cons, hy, hys]))

end

end Parser

end TextGrammar.Source
