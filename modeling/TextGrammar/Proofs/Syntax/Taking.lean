import TextGrammar.Proofs.Source.Steps
import TextGrammar.Proofs.Syntax.Spelling

/-! # Marks that a parser takes

A parser takes the marks in front of its cursor one after the other, and leaves the depth as it
was unless it enters a level of nesting. One lemma for each step says what a step that yields has
taken. -/

namespace TextGrammar

theorem Token.kind_mark (t : Token) : t.mark.kind = t.kind := by
  unfold Token.mark
  split
  · rename_i h
    exact h.symm
  · rename_i h
    split <;> exact h.symm
  · rename_i h
    exact h.symm
  · rfl

namespace Source
open Token (Kind)
variable {α : Type}

def Cursor.marks (c : Cursor) : List Mark := c.rest.map Token.mark

/-- The levels of nesting that the limit leaves at a cursor. -/
def Cursor.levels (c : Cursor) : Nat := nestingLimit - c.depth

theorem Cursor.kind_marks (c : Cursor) (n : Nat) :
    c.marks[n]?.map Mark.kind = c.rest[n]?.map Token.kind := by
  simp [Cursor.marks, Function.comp_def, Token.kind_mark]

theorem Cursor.frontKind_marks (c : Cursor) :
    frontKind c.marks = c.rest[0]?.map Token.kind := by
  rw [frontKind, List.head?_eq_getElem?, c.kind_marks]

/-- Between two cursors some marks are taken, and the depth is the same. -/
structure Took (c : Cursor) (ws : List Mark) (d : Cursor) : Prop where
  marks : c.marks = ws ++ d.marks
  depth : d.depth = c.depth

namespace Took
variable {c d e : Cursor} {ws ws' : List Mark}

theorem refl (c : Cursor) : Took c [] c := ⟨rfl, rfl⟩

theorem trans (h : Took c ws d) (h' : Took d ws' e) : Took c (ws ++ ws') e :=
  ⟨by rw [h.marks, h'.marks, List.append_assoc], h'.depth.trans h.depth⟩

theorem cons {m : Mark} (h : Took c [m] d) (h' : Took d ws e) : Took c (m :: ws) e := h.trans h'

theorem levels (h : Took c ws d) : d.levels = c.levels := by rw [Cursor.levels, h.depth]; rfl

theorem length_lt {m : Mark} (h : Took c (m :: ws) d) : d.marks.length < c.marks.length := by
  rw [h.marks, List.length_append, List.length_cons]
  omega

end Took

namespace Parser
variable {c d : Cursor} {kind : Kind}

theorem here_yields {x : Span} (h : Yields here c x d) : c = d := by cases h; rfl

theorem last_yields {x : Span} (h : Yields last c x d) : c = d := by cases h; rfl

theorem spanFrom_yields {start x : Span} (h : Yields (spanFrom start) c x d) : c = d := by
  cases h; rfl

theorem peekAt_yields {n : Nat} {k : Option Kind} (h : Yields (peekAt n) c k d) :
    c = d ∧ c.marks[n]?.map Mark.kind = k := by
  cases h
  exact ⟨rfl, c.kind_marks n⟩

theorem peek_yields {k : Option Kind} (h : Yields peek c k d) :
    c = d ∧ frontKind c.marks = k := by
  cases h
  exact ⟨rfl, c.frontKind_marks⟩

theorem at_yields {b : Bool} (h : Yields (at? kind) c b d) :
    c = d ∧ b = (frontKind c.marks == some kind) := by
  obtain ⟨k, e, hk, h⟩ := yields_bind.1 h
  obtain ⟨rfl, rfl⟩ := peek_yields hk
  obtain ⟨rfl, rfl⟩ := yields_pure.1 h
  exact ⟨rfl, rfl⟩

theorem advance_yields {u : Unit} (h : Yields advance c u d) (hc : frontKind c.marks = some kind) :
    ∃ m, m.kind = kind ∧ Took c [m] d := by
  obtain ⟨ts, last, stop, depth⟩ := c
  obtain rfl := yields_modify.1 h
  cases ts with
  | nil => cases hc
  | cons t ts => exact ⟨t.mark, Option.some.inj hc, rfl, rfl⟩

theorem accept_yields {b : Bool} (h : Yields (accept kind) c b d) :
    (b = true ∧ ∃ m, m.kind = kind ∧ Took c [m] d) ∨
      (b = false ∧ c = d ∧ frontKind c.marks ≠ some kind) := by
  obtain ⟨found, e, hfound, h⟩ := yields_bind.1 h
  obtain ⟨rfl, rfl⟩ := at_yields hfound
  split at h
  · rename_i hfront
    obtain ⟨u, e, hu, h⟩ := yields_bind.1 h
    obtain ⟨rfl, rfl⟩ := yields_pure.1 h
    exact .inl ⟨rfl, advance_yields hu (eq_of_beq hfront)⟩
  · rename_i hfront
    obtain ⟨rfl, rfl⟩ := yields_pure.1 h
    exact .inr ⟨rfl, rfl, fun heq => hfront (beq_iff_eq.2 heq)⟩

theorem expect_yields {t : Token} (h : Yields (expect kind) c t d) :
    t.kind = kind ∧ Took c [t.mark] d := by
  obtain ⟨hkind, ts, hrest, rfl⟩ := yields_expect.1 h
  exact ⟨hkind, congrArg (List.map Token.mark) hrest, rfl⟩

/-- A symbol that is expected is taken. -/
theorem expect_symbol {s : Symbol} {t : Token} (h : Yields (expect (.symbol s)) c t d) :
    Took c [.symbol s] d := by
  obtain ⟨hkind, htook⟩ := expect_yields h
  rwa [Mark.eq_symbol (t.kind_mark.trans hkind)] at htook

theorem expect_keyword {k : Keyword} {t : Token} (h : Yields (expect (.keyword k)) c t d) :
    Took c [.keyword k] d := by
  obtain ⟨hkind, htook⟩ := expect_yields h
  rwa [Mark.eq_keyword (t.kind_mark.trans hkind)] at htook

theorem advance_symbol {s : Symbol} {u : Unit} (h : Yields advance c u d)
    (hc : frontKind c.marks = some (.symbol s)) : Took c [.symbol s] d := by
  obtain ⟨m, hm, htook⟩ := advance_yields h hc
  rwa [Mark.eq_symbol hm] at htook

theorem advance_keyword {k : Keyword} {u : Unit} (h : Yields advance c u d)
    (hc : frontKind c.marks = some (.keyword k)) : Took c [.keyword k] d := by
  obtain ⟨m, hm, htook⟩ := advance_yields h hc
  rwa [Mark.eq_keyword hm] at htook

theorem accept_symbol {s : Symbol} {b : Bool} (h : Yields (accept (.symbol s)) c b d) :
    (b = true ∧ Took c [.symbol s] d) ∨
      (b = false ∧ c = d ∧ frontKind c.marks ≠ some (.symbol s)) := by
  obtain ⟨hb, m, hm, htook⟩ | hnone := accept_yields h
  · rw [Mark.eq_symbol hm] at htook
    exact .inl ⟨hb, htook⟩
  · exact .inr hnone

theorem accept_keyword {k : Keyword} {b : Bool} (h : Yields (accept (.keyword k)) c b d) :
    (b = true ∧ Took c [.keyword k] d) ∨
      (b = false ∧ c = d ∧ frontKind c.marks ≠ some (.keyword k)) := by
  obtain ⟨hb, m, hm, htook⟩ | hnone := accept_yields h
  · rw [Mark.eq_keyword hm] at htook
    exact .inl ⟨hb, htook⟩
  · exact .inr hnone

theorem identifier_yields {name : Name} (h : Yields identifier c name d) :
    Took c [.name name.text] d := by
  obtain ⟨t, e, ht, h⟩ := yields_bind.1 h
  obtain ⟨hkind, htook⟩ := expect_yields ht
  obtain ⟨rfl, rfl⟩ := yields_pure.1 h
  have hmark : t.mark = .name (String.ofList t.text) := by simp only [Token.mark, hkind]
  rwa [hmark] at htook

theorem string_yields {name : Name} (h : Yields string c name d) :
    Took c [.string name.text] d := by
  obtain ⟨t, e, ht, h⟩ := yields_bind.1 h
  obtain ⟨hkind, htook⟩ := expect_yields ht
  split at h
  · rename_i text hdecode
    obtain ⟨rfl, rfl⟩ := yields_pure.1 h
    have hmark : t.mark = .string (String.ofList text) := by simp only [Token.mark, hkind, hdecode]
    rwa [hmark] at htook
  · exact absurd h yields_throw

theorem number_yields {t : Token} {negative : Bool} {span : Span} {e : Expr}
    (h : Yields (number t negative span) c e d) : c = d ∧ Numeral negative t.text e := by
  unfold number at h
  dsimp only at h
  split at h
  · rename_i hpoint
    split at h
    · rename_i x hread
      obtain ⟨rfl, rfl⟩ := yields_pure.1 h
      exact ⟨rfl, .float hpoint hread⟩
    · exact absurd h yields_throw
  · rename_i hpoint
    split at h
    · rename_i n hread
      obtain ⟨rfl, rfl⟩ := yields_pure.1 h
      exact ⟨rfl, .int (Bool.not_eq_true _ ▸ hpoint) hread⟩
    · exact absurd h yields_throw

theorem descend_yields {u : Unit} (h : Yields descend c u d) :
    d.marks = c.marks ∧ d.levels + 1 = c.levels := by
  obtain ⟨hlt, rfl⟩ := yields_descend.1 h
  refine ⟨rfl, ?_⟩
  simp only [Cursor.levels]
  omega

theorem keepDepth_yields {p : Parser α} {x : α} (h : Yields (keepDepth p) c x d) :
    ∃ e, Yields p c x e ∧ d.marks = e.marks ∧ d.depth = c.depth := by
  obtain ⟨e, he, rfl⟩ := yields_keepDepth.1 h
  exact ⟨e, he, rfl, rfl⟩

/-- What is nested takes its marks one level deeper. -/
theorem nested_yields {p : Parser α} {x : α} (h : Yields (nested p) c x d) :
    ∃ c' d', Yields p c' x d' ∧ c'.levels + 1 = c.levels ∧
      ∀ ws, Took c' ws d' → Took c ws d := by
  obtain ⟨d', h, hmarks, hdepth⟩ := keepDepth_yields h
  obtain ⟨u, c', hu, h⟩ := yields_bind.1 h
  obtain ⟨hmarks', hlevels⟩ := descend_yields hu
  refine ⟨c', d', h, hlevels, fun ws htook => ⟨?_, hdepth⟩⟩
  rw [← hmarks', htook.marks, hmarks]

/-- A step is repeated from one cursor to another, until it yields nothing more. -/
inductive Repeated (step : Parser (Option α)) : Cursor → List α → Cursor → Prop
  | stop {c d : Cursor} (h : Yields step c none d) : Repeated step c [] d
  | more {c e d : Cursor} {x : α} {xs : List α} (h : Yields step c (some x) e)
    (hrest : Repeated step e xs d) : Repeated step c (x :: xs) d

def Shortens (step : Parser (Option α)) : Prop :=
  ∀ ⦃c x d⦄, Yields step c (some x) d → d.marks.length < c.marks.length

theorem manyUpTo_yields {step : Parser (Option α)} (hstep : Shortens step) {n : Nat} {xs : List α}
    (h : Yields (manyUpTo step n) c xs d) (hn : c.marks.length < n) : Repeated step c xs d := by
  induction n generalizing c xs with
  | zero => cases hn
  | succ n ih =>
    obtain ⟨o, e, ho, h⟩ := yields_bind.1 h
    cases o with
    | none =>
      obtain ⟨rfl, rfl⟩ := yields_pure.1 h
      exact .stop ho
    | some x =>
      obtain ⟨ys, f, hys, h⟩ := yields_bind.1 h
      obtain ⟨rfl, rfl⟩ := yields_pure.1 h
      have hlt := hstep ho
      exact .more ho (ih hys (by omega))

theorem many_yields {step : Parser (Option α)} (hstep : Shortens step) {xs : List α}
    (h : Yields (many step) c xs d) : Repeated step c xs d := by
  obtain ⟨start, e, hstart, h⟩ := yields_bind.1 h
  cases hstart
  refine manyUpTo_yields hstep h ?_
  rw [Cursor.marks, List.length_map]
  exact Nat.lt_succ_self _

/-- A parser takes a spelling of what it yields, with the levels that the cursor leaves for it. -/
def Takes (p : Parser α) (R : Nat → α → List Mark → Prop) : Prop :=
  ∀ ⦃c x d⦄, Yields p c x d → ∃ ws, Took c ws d ∧ R c.levels x ws

theorem forall_zip_cons {β γ : Type} {x : β} {y : γ} {xs : List β} {ys : List γ}
    {R : β → γ → Prop} (h : R x y) (hrest : ∀ z ∈ xs.zip ys, R z.1 z.2) :
    ∀ z ∈ (x :: xs).zip (y :: ys), R z.1 z.2 :=
  List.forall_mem_cons.2 ⟨h, hrest⟩

section
variable {close : Symbol} {item : Parser α} {R : Nat → α → List Mark → Prop}

theorem nextItem_yields (hitem : Takes item R) {o : Option α}
    (h : Yields (nextItem (.symbol close) item) c o d) :
    (o = none ∧ (c = d ∨ Took c [.symbol .comma] d)) ∨
      ∃ x ws, o = some x ∧ Took c (.symbol .comma :: ws) d ∧ R c.levels x ws := by
  obtain ⟨b, e, hb, h⟩ := yields_bind.1 h
  obtain ⟨rfl, htook⟩ | ⟨rfl, rfl, -⟩ := accept_symbol hb
  · obtain ⟨b, f, hb, h⟩ := yields_bind.1 h
    obtain ⟨rfl, -⟩ := at_yields hb
    cases b with
    | true =>
      obtain ⟨rfl, rfl⟩ := yields_pure.1 h
      exact .inl ⟨rfl, .inr htook⟩
    | false =>
      obtain ⟨x, g, hx, h⟩ := yields_bind.1 h
      obtain ⟨rfl, rfl⟩ := yields_pure.1 h
      obtain ⟨ws, htook', hR⟩ := hitem hx
      exact .inr ⟨x, ws, rfl, htook.cons htook', htook.levels ▸ hR⟩
  · obtain ⟨rfl, rfl⟩ := yields_pure.1 h
    exact .inl ⟨rfl, .inl rfl⟩

/-- The items behind the first one of a list. -/
theorem repeated_nextItem (hitem : Takes item R) {xs : List α}
    (h : Repeated (nextItem (.symbol close) item) c xs d) :
    ∃ items tail, Took c tail d ∧ xs.length = items.length ∧
      (∀ x ∈ xs.zip items, R c.levels x.1 x.2) ∧
      ∀ first, Listed (first :: items) (first ++ tail) := by
  induction h with
  | stop h =>
    obtain ⟨-, rfl | htook⟩ | ⟨_, _, ⟨⟩, -⟩ := nextItem_yields hitem h
    · refine ⟨[], [], .refl _, rfl, nofun, fun first => ?_⟩
      rw [List.append_nil]
      exact .last
    · exact ⟨[], _, htook, rfl, nofun, fun _ => .more .nil⟩
  | more h _ ih =>
    obtain ⟨⟨⟩, -⟩ | ⟨x, ws, ⟨⟩, htook, hR⟩ := nextItem_yields hitem h
    obtain ⟨items, tail, htook', hlength, hitems, hlisted⟩ := ih
    rw [htook.levels] at hitems
    exact ⟨ws :: items, _, htook.trans htook', congrArg Nat.succ hlength,
      forall_zip_cons hR hitems, fun _ => .more (hlisted ws)⟩

/-- A list takes the spellings of its items, commas between them, and its end. -/
theorem listUntil_yields (hitem : Takes item R) {xs : List α}
    (h : Yields (listUntil (.symbol close) item) c xs d) :
    ∃ items ws, Took c (ws ++ [.symbol close]) d ∧ xs.length = items.length ∧
      (∀ x ∈ xs.zip items, R c.levels x.1 x.2) ∧ Listed items ws := by
  have hshortens : Shortens (nextItem (.symbol close) item) := by
    intro c x d h
    obtain ⟨⟨⟩, -⟩ | ⟨_, ws, ⟨⟩, htook, -⟩ := nextItem_yields hitem h
    exact htook.length_lt
  have hend : ∀ {c d : Cursor} {xs ys : List α}, Yields (do
      let _ ← expect (.symbol close)
      return xs) c ys d → xs = ys ∧ Took c [.symbol close] d := by
    intro c d xs ys h
    obtain ⟨t, e, ht, h⟩ := yields_bind.1 h
    obtain ⟨rfl, rfl⟩ := yields_pure.1 h
    exact ⟨rfl, expect_symbol ht⟩
  obtain ⟨b, e, hb, h⟩ := yields_bind.1 h
  obtain ⟨rfl, -⟩ := at_yields hb
  cases b with
  | true =>
    obtain ⟨ys, f, hys, h⟩ := yields_bind.1 h
    obtain ⟨rfl, rfl⟩ := yields_pure.1 hys
    obtain ⟨rfl, htook⟩ := hend h
    exact ⟨[], [], htook, rfl, nofun, .nil⟩
  | false =>
    obtain ⟨x, f, hx, h⟩ := yields_bind.1 h
    obtain ⟨xs', g, hxs, h⟩ := yields_bind.1 h
    obtain ⟨ys, i, hys, h⟩ := yields_bind.1 h
    obtain ⟨rfl, rfl⟩ := yields_pure.1 hys
    obtain ⟨rfl, hclose⟩ := hend h
    obtain ⟨ws, htook, hR⟩ := hitem hx
    obtain ⟨items, tail, htook', hlength, hitems, hlisted⟩ :=
      repeated_nextItem hitem (many_yields hshortens hxs)
    rw [htook.levels] at hitems
    exact ⟨ws :: items, ws ++ tail, (htook.trans htook').trans hclose, congrArg Nat.succ hlength,
      forall_zip_cons hR hitems, hlisted ws⟩

end

end Parser

end Source

end TextGrammar
