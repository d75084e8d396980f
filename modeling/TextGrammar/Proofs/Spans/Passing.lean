import TextGrammar.Proofs.Spans.Filling

/-! # Tokens that a parser passes

A parser passes the tokens in front of its cursor one after the other, and they fill the pieces of
what it yields. Where the next token stands and where the one read last has stood give the span of
a construct. -/

namespace TextGrammar.Source
open Token (Kind)
open Piece

structure Crossed (c : Cursor) (ts : List Token) (d : Cursor) : Prop where
  rest : c.rest = ts ++ d.rest
  last : d.last = (ts.getLast?.map Token.span).getD c.last

namespace Crossed
variable {c d e : Cursor} {ts us : List Token}

theorem trans (h : Crossed c ts d) (h' : Crossed d us e) : Crossed c (ts ++ us) e := by
  refine ⟨by rw [h.rest, h'.rest, List.append_assoc], ?_⟩
  rw [h'.last, h.last, List.getLast?_append]
  cases us.getLast? <;> rfl

theorem here_eq {t : Token} (h : Crossed c (t :: ts) d) : c.here = t.span := by
  rw [Cursor.here, h.rest]
  rfl

/-- The place of the next token covers the first of the tokens that are read from there. -/
theorem covers_here (h : Crossed c ts d) (hne : ts ≠ []) :
    ∃ us, us <+: ts ∧ Covers c.here us := by
  cases ts with
  | nil => exact absurd rfl hne
  | cons t ts =>
    rw [h.here_eq]
    exact ⟨[t], ⟨ts, rfl⟩, .singleton t⟩

theorem covers_last (h : Crossed c ts d) (hne : ts ≠ []) :
    ∃ us, us <:+ ts ∧ Covers d.last us := by
  refine ⟨[ts.getLast hne], ⟨ts.dropLast, List.dropLast_concat_getLast hne⟩, ?_⟩
  rw [h.last, List.getLast?_eq_some_getLast hne]
  exact .singleton _

end Crossed

/-- Between two cursors some tokens are read that fill some pieces, if they follow one another. -/
def Passed (c : Cursor) (ps : List Piece) (d : Cursor) : Prop :=
  ∃ ts, Crossed c ts d ∧ ps.length ≤ ts.length ∧ (Ordered ts → Fills ps ts)

namespace Passed
variable {c d e : Cursor} {ps qs : List Piece} {x y z : Construct}

/-- Nothing is read where the tokens to read and the place of the one read last are kept. -/
theorem still (hrest : d.rest = c.rest) (hlast : d.last = c.last) : Passed c [] d :=
  ⟨[], ⟨hrest.symm, hlast⟩, Nat.le_refl _, fun _ => .nil⟩

theorem refl (c : Cursor) : Passed c [] c := still rfl rfl

theorem trans (h : Passed c ps d) (h' : Passed d qs e) : Passed c (ps ++ qs) e := by
  obtain ⟨ts, hts, hlength, hfills⟩ := h
  obtain ⟨us, hus, hlength', hfills'⟩ := h'
  refine ⟨ts ++ us, hts.trans hus, ?_, fun hordered => ?_⟩
  · rw [List.length_append, List.length_append]
    exact Nat.add_le_add hlength hlength'
  · exact (hfills (hordered.mono (List.sublist_append_left _ _))).append
      (hfills' (hordered.mono (List.sublist_append_right _ _)))

theorem cons {p : Piece} (h : Passed c [p] d) (h' : Passed d ps e) : Passed c (p :: ps) e :=
  h.trans h'

theorem sign {t : Token} (h : Crossed c [t] d) : Passed c [.sign t.mark] d :=
  ⟨[t], h, Nat.le_refl _, fun _ => .single⟩

theorem length_lt (h : Passed c ps d) (hne : ps ≠ []) : d.marks.length < c.marks.length := by
  obtain ⟨ts, hts, hlength, -⟩ := h
  have hpos := List.length_pos_iff.2 hne
  simp only [Cursor.marks, hts.rest, List.map_append, List.length_append, List.length_map]
  omega

/-- What fills some pieces is a construct, if a layout of it is filled too and its span covers the
tokens. -/
theorem construct (h : Passed c ps d) (hne : ps ≠ [])
    (hlayout : ∀ ⦃ts⦄, Fills ps ts → ∃ qs, Layout x qs ∧ Fills qs ts)
    (hcovers : ∀ ⦃ts⦄, Crossed c ts d → ts ≠ [] → Ordered ts → Fills ps ts → Covers x.span ts) :
    Passed c [.part x] d := by
  obtain ⟨ts, hts, hlength, hfills⟩ := h
  have hpos := List.length_pos_iff.2 hne
  refine ⟨ts, hts, Nat.lt_of_lt_of_le hpos hlength, fun hordered => .of_occupies ?_⟩
  have hps := hfills hordered
  obtain ⟨qs, hqs, hfilled⟩ := hlayout hps
  exact .mk hqs hfilled
    (hcovers hts (List.length_pos_iff.1 (Nat.lt_of_lt_of_le hpos hlength)) hordered hps)

/-- A construct whose span goes from the next token to the token read last. -/
theorem spanned (h : Passed c ps d) (hlayout : Layout x ps)
    (hspan : x.span = c.here.join d.last) : Passed c [.part x] d := by
  refine h.construct hlayout.ne_nil (fun _ h => ⟨ps, hlayout, h⟩) fun ts hts hne hordered _ => ?_
  obtain ⟨front, hfront, hhere⟩ := hts.covers_here hne
  obtain ⟨back, hback, hlast⟩ := hts.covers_last hne
  exact hspan ▸ .join hordered hhere hlast hfront hback

/-- A construct whose span goes from that of its first part to the token read last. -/
theorem suffixed (h : Passed c (.part y :: ps) d) (hlayout : Layout x (.part y :: ps))
    (hspan : x.span = y.span.join d.last) : Passed c [.part x] d := by
  refine h.construct hlayout.ne_nil (fun _ h => ⟨_, hlayout, h⟩) fun ts hts hne hordered hps => ?_
  obtain ⟨front, hfront, hfirst⟩ := hps.covers_first
  obtain ⟨back, hback, hlast⟩ := hts.covers_last hne
  exact hspan ▸ .join hordered hfirst hlast hfront hback

/-- A construct whose span goes from that of its first part to that of its last part. -/
theorem joined (h : Passed c (.part y :: (ps ++ [.part z])) d)
    (hlayout : Layout x (.part y :: (ps ++ [.part z]))) (hspan : x.span = y.span.join z.span) :
    Passed c [.part x] d := by
  refine h.construct hlayout.ne_nil (fun _ h => ⟨_, hlayout, h⟩) fun ts hts hne hordered hps => ?_
  have hps' : Fills ((.part y :: ps) ++ [.part z]) ts := hps
  obtain ⟨front, hfront, hfirst⟩ := hps.covers_first
  obtain ⟨back, hback, hlast⟩ := hps'.covers_last
  exact hspan ▸ .join hordered hfirst hlast hfront hback

/-- A construct that is another one with a token on either side. -/
theorem enclosed {l r : Mark} (h : Passed c [.sign l, .part y, .sign r] d)
    (hlayout : ∀ ⦃ps⦄, Layout y ps → Layout x (.sign l :: (ps ++ [.sign r])))
    (hspan : x.span = c.here.join d.last) : Passed c [.part x] d := by
  refine h.construct (by simp) (fun ts hts => ?_) fun ts hts hne hordered _ => ?_
  · obtain ⟨us, vs, rfl, hopen, hrest⟩ := Fills.split [.sign l] hts
    obtain ⟨ws, vs, rfl, hpart, hclose⟩ := Fills.split [.part y] hrest
    cases hpart.occupies with
    | mk hps hfills hcovers => exact ⟨_, hlayout hps, hopen.append (hfills.append hclose)⟩
  · obtain ⟨front, hfront, hhere⟩ := hts.covers_here hne
    obtain ⟨back, hback, hlast⟩ := hts.covers_last hne
    exact hspan ▸ .join hordered hhere hlast hfront hback

end Passed

namespace Parser
variable {α : Type} {c d : Cursor} {kind : Kind}

theorem here_place {x : Span} (h : Yields here c x d) : c = d ∧ c.here = x := by
  cases h
  exact ⟨rfl, rfl⟩

theorem last_place {x : Span} (h : Yields last c x d) : c = d ∧ c.last = x := by
  cases h
  exact ⟨rfl, rfl⟩

/-- The end of a parser that gives what it has read the span from some place on. -/
theorem spanned_place {start : Span} {f : Span → α} {x : α} (h : Yields (do
    return f (← spanFrom start)) c x d) : c = d ∧ f (start.join c.last) = x := by
  obtain ⟨span, e, hspan, h⟩ := yields_bind.1 h
  cases hspan
  obtain ⟨rfl, rfl⟩ := yields_pure.1 h
  exact ⟨rfl, rfl⟩

theorem expect_crossed {t : Token} (h : Yields (expect kind) c t d) :
    t.kind = kind ∧ Crossed c [t] d := by
  obtain ⟨hkind, ts, hrest, rfl⟩ := yields_expect.1 h
  exact ⟨hkind, hrest, rfl⟩

theorem advance_crossed {u : Unit} (h : Yields advance c u d)
    (hc : frontKind c.marks = some kind) : ∃ t, t.kind = kind ∧ Crossed c [t] d := by
  obtain ⟨ts, last, stop, depth⟩ := c
  obtain rfl := yields_modify.1 h
  cases ts with
  | nil => cases hc
  | cons t ts => exact ⟨t, t.kind_mark.symm.trans (Option.some.inj hc), rfl, rfl⟩

section
variable (hkind : ∀ {m : Mark}, m.kind = kind → m = .sign kind)
include hkind

theorem expect_passed {t : Token} (h : Yields (expect kind) c t d) :
    Passed c [.sign (.sign kind)] d := by
  obtain ⟨ht, hcrossed⟩ := expect_crossed h
  rw [← hkind (t.kind_mark.trans ht)]
  exact .sign hcrossed

theorem advance_passed {u : Unit} (h : Yields advance c u d)
    (hc : frontKind c.marks = some kind) : Passed c [.sign (.sign kind)] d := by
  obtain ⟨t, ht, hcrossed⟩ := advance_crossed h hc
  rw [← hkind (t.kind_mark.trans ht)]
  exact .sign hcrossed

theorem accept_passed {b : Bool} (h : Yields (accept kind) c b d) :
    Passed c (signIf b (.sign kind)) d := by
  obtain ⟨found, e, hfound, h⟩ := yields_bind.1 h
  obtain ⟨rfl, rfl⟩ := at_yields hfound
  split at h
  · rename_i hfront
    obtain ⟨u, e, hu, h⟩ := yields_bind.1 h
    obtain ⟨rfl, rfl⟩ := yields_pure.1 h
    exact advance_passed hkind hu (eq_of_beq hfront)
  · obtain ⟨rfl, rfl⟩ := yields_pure.1 h
    exact .refl _

end

/-- The span of a single token goes from the next token to the token read last. -/
theorem Crossed.span_eq {t : Token} (h : Crossed c [t] d) : t.span = c.here.join d.last := by
  rw [h.here_eq, h.last]
  exact t.span.join_self.symm

theorem identifier_passed {n : Name} (h : Yields identifier c n d) :
    Passed c [.sign (.name n.text)] d ∧ n.span = c.here.join d.last := by
  obtain ⟨t, e, ht, h⟩ := yields_bind.1 h
  obtain ⟨hkind, hcrossed⟩ := expect_crossed ht
  obtain ⟨rfl, rfl⟩ := yields_pure.1 h
  have hmark : t.mark = .name (String.ofList t.text) := by simp only [Token.mark, hkind]
  exact ⟨hmark ▸ .sign hcrossed, Crossed.span_eq hcrossed⟩

theorem identifier_named {n : Name} (h : Yields identifier c n d) :
    Passed c [.part (.name n)] d := by
  obtain ⟨hpassed, hspan⟩ := identifier_passed h
  exact hpassed.spanned .name hspan

theorem string_passed {n : Name} (h : Yields string c n d) :
    Passed c [.sign (.string n.text)] d ∧ n.span = c.here.join d.last := by
  obtain ⟨t, e, ht, h⟩ := yields_bind.1 h
  obtain ⟨hkind, hcrossed⟩ := expect_crossed ht
  split at h
  · rename_i text hdecode
    obtain ⟨rfl, rfl⟩ := yields_pure.1 h
    have hmark : t.mark = .string (String.ofList text) := by simp only [Token.mark, hkind, hdecode]
    exact ⟨hmark ▸ .sign hcrossed, Crossed.span_eq hcrossed⟩
  · exact absurd h yields_throw

theorem number_span {t : Token} {negative : Bool} {span : Span} {e : Expr}
    (h : Yields (number t negative span) c e d) : e.span = span := by
  unfold number at h
  dsimp only at h
  split at h <;> split at h
  all_goals first
    | exact absurd h yields_throw
    | obtain ⟨rfl, rfl⟩ := yields_pure.1 h
      rfl

theorem keepDepth_passed {p : Parser α} {x : α} (h : Yields (keepDepth p) c x d) :
    ∃ e, Yields p c x e ∧ Passed e [] d := by
  obtain ⟨e, he, rfl⟩ := yields_keepDepth.1 h
  exact ⟨e, he, .still rfl rfl⟩

theorem descend_passed {u : Unit} (h : Yields descend c u d) : Passed c [] d := by
  obtain ⟨-, rfl⟩ := yields_descend.1 h
  exact .still rfl rfl

/-- What is nested passes its tokens one level deeper. -/
theorem nested_passed {p : Parser α} {x : α} (h : Yields (nested p) c x d) :
    ∃ c' d', Yields p c' x d' ∧ ∀ ⦃ps⦄, Passed c' ps d' → Passed c ps d := by
  obtain ⟨d', h, hend⟩ := keepDepth_passed h
  obtain ⟨u, c', hu, h⟩ := yields_bind.1 h
  refine ⟨c', d', h, fun ps hps => ?_⟩
  rw [← List.append_nil ps]
  exact (descend_passed hu).trans (hps.trans hend)

/-- A step passes no token if it yields nothing, and the pieces of what it yields if it does. -/
def PassesStep (step : Parser (Option α)) (R : α → List Piece → Prop) : Prop :=
  ∀ ⦃c o d⦄, Yields step c o d → (o = none ∧ Passed c [] d) ∨
    ∃ x ps, o = some x ∧ R x ps ∧ ps ≠ [] ∧ Passed c ps d

section
variable {step : Parser (Option α)} {R : α → List Piece → Prop}

theorem PassesStep.shortens (hstep : PassesStep step R) : Shortens step := by
  intro c x d h
  obtain ⟨⟨⟩, -⟩ | ⟨y, ps, -, -, hne, hpassed⟩ := hstep h
  exact hpassed.length_lt hne

/-- The pieces of repeated steps stand in a row. -/
theorem PassesStep.repeated (hstep : PassesStep step R) {xs : List α}
    (h : Yields (many step) c xs d) :
    ∃ rows : List (α × List Piece), xs = rows.map Prod.fst ∧ (∀ x ∈ rows, R x.1 x.2) ∧
      Passed c (rows.flatMap Prod.snd) d := by
  have hrounds := many_yields hstep.shortens h
  clear h
  induction hrounds with
  | stop h =>
    obtain ⟨-, hpassed⟩ | ⟨_, _, ⟨⟩, -⟩ := hstep h
    exact ⟨[], rfl, nofun, hpassed⟩
  | more h _ ih =>
    obtain ⟨⟨⟩, -⟩ | ⟨x, ps, ⟨⟩, hR, -, hpassed⟩ := hstep h
    obtain ⟨rows, rfl, hrows, hrest⟩ := ih
    exact ⟨(_, ps) :: rows, rfl, List.forall_mem_cons.2 ⟨hR, hrows⟩, hpassed.trans hrest⟩

theorem PassesStep.repeated_flatMap {f : α → List Piece}
    (hstep : PassesStep step fun x ps => ps = f x) {xs : List α} (h : Yields (many step) c xs d) :
    Passed c (xs.flatMap f) d := by
  obtain ⟨rows, rfl, hrows, hpassed⟩ := hstep.repeated h
  have heq : rows.flatMap Prod.snd = (rows.map Prod.fst).flatMap f := by
    rw [List.flatMap_map]
    exact List.flatMap_congr hrows
  rwa [heq] at hpassed

end

/-- A parser passes the pieces of what it yields. -/
def Passes (p : Parser α) (R : α → List Piece → Prop) : Prop :=
  ∀ ⦃c x d⦄, Yields p c x d → ∃ ps, R x ps ∧ Passed c ps d

section
variable {close : Symbol} {item : Parser α} {R : α → List Piece → Prop}

theorem nextItem_passed (hitem : Passes item R) {o : Option α}
    (h : Yields (nextItem (.symbol close) item) c o d) :
    (o = none ∧ ∃ b, Passed c (signIf b (.symbol .comma)) d) ∨
      ∃ x ps, o = some x ∧ R x ps ∧ Passed c (symbol .comma :: ps) d := by
  obtain ⟨b, e, hb, h⟩ := yields_bind.1 h
  have hcomma := accept_passed Mark.eq_symbol hb
  cases b with
  | true =>
    obtain ⟨b, f, hb, h⟩ := yields_bind.1 h
    obtain ⟨rfl, -⟩ := at_yields hb
    cases b with
    | true =>
      obtain ⟨rfl, rfl⟩ := yields_pure.1 h
      exact .inl ⟨rfl, _, hcomma⟩
    | false =>
      obtain ⟨x, g, hx, h⟩ := yields_bind.1 h
      obtain ⟨rfl, rfl⟩ := yields_pure.1 h
      obtain ⟨ps, hR, hpassed⟩ := hitem hx
      exact .inr ⟨x, ps, rfl, hR, hcomma.trans hpassed⟩
  | false =>
    obtain ⟨rfl, rfl⟩ := yields_pure.1 h
    exact .inl ⟨rfl, _, hcomma⟩

/-- The items behind the first one of a list. -/
theorem repeated_nextItem_passed (hitem : Passes item R) {xs : List α}
    (h : Repeated (nextItem (.symbol close) item) c xs d) :
    ∃ tail, Passed c tail d ∧ ∀ {x ps}, R x ps → LaidList R (x :: xs) (ps ++ tail) := by
  induction h with
  | stop h =>
    obtain ⟨-, b, hpassed⟩ | ⟨_, _, ⟨⟩, -⟩ := nextItem_passed hitem h
    refine ⟨_, hpassed, fun hR => ?_⟩
    cases b with
    | true => exact .more hR .nil
    | false =>
      rw [signIf, if_neg Bool.false_ne_true, List.append_nil]
      exact .last hR
  | more h _ ih =>
    obtain ⟨⟨⟩, -⟩ | ⟨y, qs, ⟨⟩, hR, hpassed⟩ := nextItem_passed hitem h
    obtain ⟨tail, hrest, hlaid⟩ := ih
    exact ⟨_, hpassed.trans hrest, fun hx => .more hx (hlaid hR)⟩

/-- A list passes the pieces of its items, commas between them, and its end. -/
theorem listUntil_passed (hitem : Passes item R) {xs : List α}
    (h : Yields (listUntil (.symbol close) item) c xs d) :
    ∃ ps, LaidList R xs ps ∧ Passed c (ps ++ [symbol close]) d := by
  have hshortens : Shortens (nextItem (.symbol close) item) := by
    intro c x d h
    obtain ⟨⟨⟩, -⟩ | ⟨_, ps, ⟨⟩, -, hpassed⟩ := nextItem_passed hitem h
    exact hpassed.length_lt (by simp)
  have hend : ∀ {c d : Cursor} {xs ys : List α}, Yields (do
      let _ ← expect (.symbol close)
      return xs) c ys d → xs = ys ∧ Passed c [symbol close] d := by
    intro c d xs ys h
    obtain ⟨t, e, ht, h⟩ := yields_bind.1 h
    obtain ⟨rfl, rfl⟩ := yields_pure.1 h
    exact ⟨rfl, expect_passed Mark.eq_symbol ht⟩
  obtain ⟨b, e, hb, h⟩ := yields_bind.1 h
  obtain ⟨rfl, -⟩ := at_yields hb
  cases b with
  | true =>
    obtain ⟨ys, f, hys, h⟩ := yields_bind.1 h
    obtain ⟨rfl, rfl⟩ := yields_pure.1 hys
    obtain ⟨rfl, hclose⟩ := hend h
    exact ⟨[], .nil, hclose⟩
  | false =>
    obtain ⟨x, f, hx, h⟩ := yields_bind.1 h
    obtain ⟨xs', g, hxs, h⟩ := yields_bind.1 h
    obtain ⟨ys, i, hys, h⟩ := yields_bind.1 h
    obtain ⟨rfl, rfl⟩ := yields_pure.1 hys
    obtain ⟨rfl, hclose⟩ := hend h
    obtain ⟨ps, hR, hpassed⟩ := hitem hx
    obtain ⟨tail, hrest, hlaid⟩ := repeated_nextItem_passed hitem (many_yields hshortens hxs)
    exact ⟨_, hlaid hR, (hpassed.trans hrest).trans hclose⟩

end

end Parser

end TextGrammar.Source
