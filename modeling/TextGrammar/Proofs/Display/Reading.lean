import Mathlib.Data.List.Forall2
import TextGrammar.Proofs.Display.Words
import TextGrammar.Proofs.Source.Steps

/-! # Parsers that read given words

What a parser does on given words is read off its parts: a part reads the words up to some rest,
and the next part goes on there. The only fault that is left open is that the source is nested
too deep, so nothing has to be known about how deep the cursor is. -/

namespace TextGrammar.Source
open Token (Word Kind)
variable {α β : Type}

def Cursor.words (c : Cursor) : List Word := c.rest.map Token.word

/-- A parser reads words up to a rest of them, with a result that satisfies `Q`, unless the source
is nested too deep. -/
def Reads (p : Parser α) (ws rest : List Word) (Q : α → Prop) : Prop :=
  ∀ c : Cursor, c.words = ws →
    (∃ span, Faults p c ⟨span, .nestingTooDeep⟩) ∨
      ∃ x c', Yields p c x c' ∧ c'.words = rest ∧ rest.length ≤ ws.length ∧ Q x

def headKind (ws : List Word) : Option Kind := ws.head?.map Prod.fst

@[simp] theorem headKind_nil : headKind [] = none := rfl

@[simp] theorem headKind_cons (kind : Kind) (text : List Char) (ws : List Word) :
    headKind ((kind, text) :: ws) = some kind := rfl

namespace Reads
variable {ws mid rest : List Word} {p : Parser α} {P Q : α → Prop}

theorem pure {x : α} (h : Q x) : Reads (pure x) ws ws Q :=
  fun c hc => .inr ⟨x, c, yields_pure.2 ⟨rfl, rfl⟩, hc, Nat.le_refl _, h⟩

theorem bind {f : α → Parser β} {R : β → Prop} (hp : Reads p ws mid P)
    (hf : ∀ x, P x → Reads (f x) mid rest R) : Reads (p >>= f) ws rest R := by
  intro c hc
  rcases hp c hc with ⟨span, hfault⟩ | ⟨x, d, hx, hd, hle, hP⟩
  · exact .inl ⟨span, faults_bind.2 (.inl hfault)⟩
  · rcases hf x hP d hd with ⟨span, hfault⟩ | ⟨y, e, hy, he, hle', hR⟩
    · exact .inl ⟨span, faults_bind.2 (.inr ⟨x, d, hx, hfault⟩)⟩
    · exact .inr ⟨y, e, yields_bind.2 ⟨x, d, hx, hy⟩, he, Nat.le_trans hle' hle, hR⟩

theorem pure_bind {x : α} {f : α → Parser β} {R : β → Prop} (h : Reads (f x) ws rest R) :
    Reads (Pure.pure x >>= f) ws rest R :=
  (pure (Q := (x = ·)) rfl).bind fun _ hx => hx ▸ h

theorem weaken (hp : Reads p ws rest P) (h : ∀ x, P x → Q x) : Reads p ws rest Q := by
  intro c hc
  rcases hp c hc with hfault | ⟨x, d, hx, hd, hle, hP⟩
  · exact .inl hfault
  · exact .inr ⟨x, d, hx, hd, hle, h x hP⟩

/-- A parser that reads words leaves no more of them. -/
theorem length_le (hp : Reads p ws rest P) :
    Reads p ws rest fun x => P x ∧ rest.length ≤ ws.length := by
  intro c hc
  rcases hp c hc with hfault | ⟨x, d, hx, hd, hle, hP⟩
  · exact .inl hfault
  · exact .inr ⟨x, d, hx, hd, hle, hP, hle⟩

theorem length_lt {w : Word} (hp : Reads p ws rest P) :
    Reads p ws rest fun x => P x ∧ rest.length < (w :: ws).length :=
  hp.length_le.weaken fun _ hx => ⟨hx.1, Nat.lt_succ_of_le hx.2⟩

theorem map {f : α → β} {R : β → Prop} (hp : Reads p ws rest P) (h : ∀ x, P x → R (f x)) :
    Reads (f <$> p) ws rest R := by
  rw [map_eq_pure_bind]
  exact hp.bind fun x hx => .pure (h x hx)

/-- A parser that may give up because the source is nested too deep. -/
theorem tooDeep : Reads (Parser.fail .nestingTooDeep) ws rest Q :=
  fun c _ => .inl ⟨c.here, rfl⟩

end Reads

namespace Parser
variable {ws rest : List Word} {kind : Kind} {text : List Char}

theorem reads_here : Reads here ws ws fun _ => True :=
  fun c hc => .inr ⟨c.here, c, rfl, hc, Nat.le_refl _, trivial⟩

theorem reads_last : Reads last ws ws fun _ => True :=
  fun c hc => .inr ⟨c.last, c, rfl, hc, Nat.le_refl _, trivial⟩

theorem reads_spanFrom (start : Span) : Reads (spanFrom start) ws ws fun _ => True :=
  fun c hc => .inr ⟨start.join c.last, c, rfl, hc, Nat.le_refl _, trivial⟩

theorem reads_peekAt (n : Nat) :
    Reads (peekAt n) ws ws fun k => k = ws[n]?.map Prod.fst := by
  rintro c rfl
  refine .inr ⟨_, c, rfl, rfl, Nat.le_refl _, ?_⟩
  simp [Cursor.words, Token.word, Function.comp_def]

theorem reads_peek : Reads peek ws ws fun k => k = headKind ws := by
  rw [headKind, List.head?_eq_getElem?]
  exact reads_peekAt 0

theorem reads_at : Reads (at? kind) ws ws fun b => b = (headKind ws == some kind) :=
  reads_peek.bind fun k hk => .pure (by rw [hk])

theorem reads_advance {w : Word} : Reads advance (w :: ws) ws fun _ => True := by
  rintro ⟨ts, last, stop, depth⟩ hc
  cases ts with
  | nil => cases hc
  | cons t ts =>
    exact .inr ⟨(), _, rfl, (List.cons.inj hc).2, Nat.le_succ _, trivial⟩

theorem reads_accept : Reads (accept kind) ((kind, text) :: ws) ws fun b => b = true := by
  refine reads_at.bind ?_
  rintro _ rfl
  simp only [headKind_cons, beq_self_eq_true, if_true]
  exact reads_advance.bind fun _ _ => .pure rfl

theorem reads_accept_other (h : headKind ws ≠ some kind) :
    Reads (accept kind) ws ws fun b => b = false := by
  refine reads_at.bind ?_
  rintro _ rfl
  simp only [beq_eq_false_iff_ne.2 h, Bool.false_eq_true, if_false]
  exact .pure rfl

theorem reads_expect :
    Reads (expect kind) ((kind, text) :: ws) ws fun t => t.kind = kind ∧ t.text = text := by
  rintro ⟨ts, last, stop, depth⟩ hc
  cases ts with
  | nil => cases hc
  | cons t ts =>
    obtain ⟨ht, hts⟩ := List.cons.inj hc
    obtain ⟨hkind, htext⟩ := Prod.mk.inj ht
    refine .inr ⟨t, ⟨ts, t.span, stop, depth⟩, ?_, hts, Nat.le_succ _, hkind, htext⟩
    exact if_pos hkind

theorem reads_descend : Reads descend ws ws fun _ => True := by
  intro c hc
  by_cases hdepth : c.depth < nestingLimit
  · exact .inr ⟨(), { c with depth := c.depth + 1 }, if_pos hdepth, hc, Nat.le_refl _, trivial⟩
  · exact .inl ⟨c.here, if_neg hdepth⟩

theorem reads_keepDepth {p : Parser α} {Q : α → Prop} (hp : Reads p ws rest Q) :
    Reads (keepDepth p) ws rest Q := by
  have hget : Reads (get : Parser Cursor) ws ws fun _ => True :=
    fun c hc => .inr ⟨c, c, rfl, hc, Nat.le_refl _, trivial⟩
  have hset : ∀ depth, Reads (modify fun c => { c with depth } : Parser Unit) rest rest
      fun _ => True :=
    fun depth c hc => .inr ⟨(), { c with depth }, rfl, hc, Nat.le_refl _, trivial⟩
  exact hget.bind fun c _ => hp.bind fun x hx => (hset c.depth).bind fun _ _ => .pure hx

theorem reads_nested {p : Parser α} {Q : α → Prop} (hp : Reads p ws rest Q) :
    Reads (nested p) ws rest Q :=
  reads_keepDepth (reads_descend.bind fun _ _ => hp)

def Steps (step : Parser (Option α)) (ws rest : List Word) (P : α → Prop) : Prop :=
  Reads step ws rest fun o => ∃ x, o = some x ∧ P x ∧ rest.length < ws.length

theorem steps_some {p : Parser α} {P : α → Prop}
    (h : Reads p ws rest fun x => P x ∧ rest.length < ws.length) : Steps (some <$> p) ws rest P :=
  h.map fun x hx => ⟨x, rfl, hx⟩

def Repeats (step : Parser (Option α)) (ws rest : List Word) (Q : List α → Prop) : Prop :=
  ∀ n, ws.length < n → Reads (manyUpTo step n) ws rest Q

namespace Repeats
variable {mid : List Word} {step : Parser (Option α)} {Q : List α → Prop}

theorem weaken {P : List α → Prop} (h : Repeats step ws rest P) (hPQ : ∀ xs, P xs → Q xs) :
    Repeats step ws rest Q :=
  fun n hn => (h n hn).weaken hPQ

theorem stop (h : Reads step ws ws fun x => x = none) (hQ : Q []) : Repeats step ws ws Q := by
  intro n hn
  cases n with
  | zero => cases hn
  | succ n =>
    refine h.bind ?_
    rintro _ rfl
    exact .pure hQ

theorem more {P : α → Prop} (h : Steps step ws mid P)
    (hmore : ∀ x, P x → Repeats step mid rest fun xs => Q (x :: xs)) :
    Repeats step ws rest Q := by
  intro n hn
  cases n with
  | zero => cases hn
  | succ n =>
    refine h.bind ?_
    rintro _ ⟨x, rfl, hx, hlt⟩
    exact (hmore x hx n (by omega)).bind fun xs hxs => .pure hxs

end Repeats

theorem reads_many {step : Parser (Option α)} {Q : List α → Prop} (h : Repeats step ws rest Q) :
    Reads (many step) ws rest Q := by
  rintro c rfl
  have hlength : c.words.length < c.rest.length + 1 := by simp [Cursor.words]
  rcases h _ hlength c rfl with ⟨span, hfault⟩ | ⟨xs, d, hxs, hd, hle, hQ⟩
  · exact .inl ⟨span, faults_bind.2 (.inr ⟨c, c, rfl, hfault⟩)⟩
  · exact .inr ⟨xs, d, yields_bind.2 ⟨c, c, rfl, hxs⟩, hd, hle, hQ⟩

theorem intercalate_cons (sep text : List Char) (texts : List (List Char)) :
    sep.intercalate (text :: texts) = text ++ texts.flatMap (sep ++ ·) := by
  induction texts generalizing text with
  | nil => simp [List.intercalate]
  | cons next texts ih =>
    have hstep : sep.intercalate (text :: next :: texts) =
        text ++ (sep ++ sep.intercalate (next :: texts)) := by
      simp [List.intercalate]
    rw [hstep, ih, List.flatMap_cons, List.append_assoc]

section
variable {γ : Type} {close : Kind} {item : Parser α} {textOf : γ → List Char} {sep tail : List Char}
  {R : γ → α → Prop}

def ReadsItem (close : Kind) (item : Parser α) (sep tail : List Char) (text : List Char)
    (Q : α → Prop) : Prop :=
  ∀ cs, (∃ more, cs = sep ++ more) ∨ cs = tail →
    headKind (Token.words (text ++ cs)) ≠ some close ∧
      Reads item (Token.words (text ++ cs)) (Token.words cs) Q

/-- Behind an item stands a comma, or the end of the list. -/
theorem items_or_tail (textOf : γ → List Char) (sep tail : List Char) (xs : List γ) :
    (∃ more, (xs.map textOf).flatMap (sep ++ ·) ++ tail = sep ++ more) ∨
      (xs.map textOf).flatMap (sep ++ ·) ++ tail = tail := by
  cases xs with
  | nil => exact .inr rfl
  | cons y ys =>
    refine .inl ⟨textOf y ++ ((ys.map textOf).flatMap (sep ++ ·) ++ tail), ?_⟩
    simp only [List.map_cons, List.flatMap_cons, List.append_assoc]

theorem repeats_nextItem (hsep : ∀ cs, Token.words (sep ++ cs) =
      (.symbol .comma, [',']) :: Token.words cs)
    (htail : headKind (Token.words tail) = some close) (hclose : close ≠ .symbol .comma)
    {xs : List γ} (hitem : ∀ x ∈ xs, ReadsItem close item sep tail (textOf x) (R x)) :
    Repeats (nextItem close item) (Token.words ((xs.map textOf).flatMap (sep ++ ·) ++ tail))
      (Token.words tail) fun ys => List.Forall₂ R xs ys := by
  induction xs with
  | nil =>
    refine .stop ?_ .nil
    rw [List.map_nil, List.flatMap_nil, List.nil_append]
    refine (reads_accept_other ?_).bind ?_
    · rw [htail]
      exact fun h => hclose (Option.some.inj h)
    · rintro _ rfl
      exact .pure rfl
  | cons x xs ih =>
    obtain ⟨hhead, hread⟩ := hitem x List.mem_cons_self _ (items_or_tail textOf sep tail xs)
    rw [List.map_cons, List.flatMap_cons, List.append_assoc, List.append_assoc, hsep]
    refine .more (P := R x) ?_ fun y hy =>
      (ih fun z hz => hitem z (List.mem_cons_of_mem _ hz)).weaken fun ys hys => .cons hy hys
    refine reads_accept.bind ?_
    rintro _ rfl
    refine reads_at.bind ?_
    rintro _ rfl
    simp only [beq_eq_false_iff_ne.2 hhead, Bool.false_eq_true, if_false]
    refine hread.length_le.bind ?_
    rintro y ⟨hy, hle⟩
    exact .pure ⟨y, rfl, hy, Nat.lt_succ_of_le hle⟩

/-- Items with commas between them are read one by one, and then the end of their list. -/
theorem reads_listUntil (hsep : ∀ cs, Token.words (sep ++ cs) =
      (.symbol .comma, [',']) :: Token.words cs)
    (htail : Token.words tail = (close, text) :: ws) (hclose : close ≠ .symbol .comma)
    {xs : List γ} (hitem : ∀ x ∈ xs, ReadsItem close item sep tail (textOf x) (R x)) :
    Reads (listUntil close item) (Token.words (sep.intercalate (xs.map textOf) ++ tail)) ws
      fun ys => List.Forall₂ R xs ys := by
  have hhead : headKind (Token.words tail) = some close := by rw [htail, headKind_cons]
  have hend : ∀ ys : List α, List.Forall₂ R xs ys →
      Reads (do
        let _ ← expect close
        return ys) (Token.words tail) ws fun ys => List.Forall₂ R xs ys := by
    intro ys hys
    rw [htail]
    exact reads_expect.bind fun _ _ => .pure hys
  refine reads_at.bind ?_
  rintro _ rfl
  cases xs with
  | nil =>
    rw [show sep.intercalate (([] : List γ).map textOf) ++ tail = tail from rfl, hhead,
      beq_self_eq_true, if_pos rfl]
    exact .pure_bind (hend _ .nil)
  | cons x xs =>
    obtain ⟨hfirst, hread⟩ := hitem x List.mem_cons_self _ (items_or_tail textOf sep tail xs)
    rw [List.map_cons, intercalate_cons, List.append_assoc, beq_eq_false_iff_ne.2 hfirst,
      if_neg Bool.false_ne_true]
    refine hread.bind fun y hy => ?_
    refine (reads_many (repeats_nextItem hsep hhead hclose
      fun z hz => hitem z (List.mem_cons_of_mem _ hz))).bind fun ys hys => ?_
    exact .pure_bind (hend _ (.cons hy hys))

end

end Parser

end TextGrammar.Source
