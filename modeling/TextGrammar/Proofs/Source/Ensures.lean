import TextGrammar.Proofs.Display.Reading

/-! # What parsers ensure

The tokens of a source are called identifiers only if they are names: a letter or an underscore,
then these and digits, and no reserved word. A parser takes tokens from the front, so this holds
of all tokens that are still to read, and whatever a parser makes of an identifier is a name. -/

namespace TextGrammar

namespace Token

theorem takeWhile_eq_take (p : Char → Bool) (cs : List Char) :
    cs.take (runLength p cs) = cs.takeWhile p :=
  List.prefix_iff_eq_take.1 (List.takeWhile_prefix p) |>.symm

/-- A lexeme is an identifier only if its characters are a name. -/
theorem isName_of_lexeme {c : Char} {cs : List Char} {n : Nat}
    (h : lexeme c cs = (some .identifier, n)) : isName (c :: cs.take n) = true := by
  unfold lexeme at h
  split at h
  · cases h
  · split at h
    · cases h
    · split at h
      · split at h
        split at h <;> cases h
      · split at h
        · cases h
        · split at h
          · rename_i hc
            dsimp only at h
            split at h
            · cases h
            · rename_i hkeyword
              obtain ⟨-, rfl⟩ := Prod.mk.inj h
              rw [takeWhile_eq_take] at hkeyword ⊢
              simp [isName, hc, hkeyword]
          · split at h
            · cases h
            · split at h <;> cases h

def IsNamed (t : Token) : Prop := t.kind = .identifier → isName t.text = true

theorem isNamed_of_mem_tokensFrom {rounds start : Nat} {cs : List Char} {t : Token}
    (h : t ∈ tokensFrom rounds start cs) : IsNamed t := by
  induction rounds generalizing start cs with
  | zero => cases cs <;> cases h
  | succ rounds ih =>
    cases cs with
    | nil => cases h
    | cons c cs =>
      rcases hlexeme : lexeme c cs with ⟨kind?, n⟩
      simp only [tokensFrom, hlexeme] at h
      cases kind? with
      | none => exact ih h
      | some kind =>
        rcases List.mem_cons.1 h with rfl | hrest
        · rintro rfl
          exact isName_of_lexeme hlexeme
        · exact ih hrest

end Token

namespace Source
open Token (IsNamed)
variable {α β : Type}

def Cursor.IsNamed (c : Cursor) : Prop := ∀ t ∈ c.rest, Token.IsNamed t

theorem Cursor.isNamed_start (source : List Char) (stop : Nat) :
    (Cursor.start (Token.lex source) stop).IsNamed :=
  fun _ => Token.isNamed_of_mem_tokensFrom

/-- Whatever a parser yields satisfies `P`, if the tokens to read are called identifiers only if
they are names; and this still holds of the tokens that are left. -/
def Ensures (p : Parser α) (P : α → Prop) : Prop :=
  ∀ ⦃c d : Cursor⦄ ⦃x : α⦄, c.IsNamed → Yields p c x d → d.IsNamed ∧ P x

namespace Ensures
variable {p : Parser α} {P : α → Prop}

theorem pure {x : α} (h : P x) : Ensures (pure x) P := by
  intro c d y hc hy
  obtain ⟨rfl, rfl⟩ := yields_pure.1 hy
  exact ⟨hc, h⟩

theorem bind {f : α → Parser β} {R : β → Prop} (hp : Ensures p P)
    (hf : ∀ x, P x → Ensures (f x) R) : Ensures (p >>= f) R := by
  intro c e y hc hy
  obtain ⟨x, d, hx, hy⟩ := yields_bind.1 hy
  obtain ⟨hd, hP⟩ := hp hc hx
  exact hf x hP hd hy

theorem map {f : α → β} {R : β → Prop} (hp : Ensures p P) (h : ∀ x, P x → R (f x)) :
    Ensures (f <$> p) R := by
  rw [map_eq_pure_bind]
  exact hp.bind fun x hx => .pure (h x hx)

/-- A parser that never yields anything. -/
theorem of_faults (h : ∀ c, ∃ fault, Faults p c fault) : Ensures p P := by
  intro c d x _ hx
  obtain ⟨fault, hfault⟩ := h c
  rw [Faults] at hfault
  rw [Yields, hfault] at hx
  cases hx

/-- A parser that leaves the tokens to read as they are. -/
theorem of_rest (h : ∀ c d x, Yields p c x d → d.rest = c.rest ∧ P x) : Ensures p P := by
  intro c d x hc hx
  obtain ⟨hrest, hP⟩ := h c d x hx
  exact ⟨by rw [Cursor.IsNamed, hrest]; exact hc, hP⟩

theorem ite {b : Prop} [Decidable b] {q : Parser α} (hp : b → Ensures p P)
    (hq : ¬b → Ensures q P) : Ensures (if b then p else q) P := by
  split
  · exact hp ‹_›
  · exact hq ‹_›

/-- What goes on from three branches alike is asked of the three, and then once. -/
theorem branches {b c : Prop} [Decidable b] [Decidable c] {q r : Parser α} {f : α → Parser β}
    {Q : β → Prop} (hp : Ensures p P) (hq : Ensures q P) (hr : Ensures r P)
    (hf : ∀ x, P x → Ensures (f x) Q) :
    Ensures (if b then p >>= f else if c then q >>= f else r >>= f) Q :=
  .ite (fun _ => hp.bind hf) fun _ => .ite (fun _ => hq.bind hf) fun _ => hr.bind hf

end Ensures

namespace Parser
variable {p : Parser α} {P : α → Prop}

theorem ensures_fail (cause : Cause) : Ensures (fail cause : Parser α) P :=
  .of_faults fun _ => ⟨_, rfl⟩

theorem ensures_unexpected (expected : Expected) : Ensures (unexpected expected : Parser α) P :=
  .of_faults fun _ => ⟨_, rfl⟩

theorem ensures_throw (fault : Fault) : Ensures (throw fault : Parser α) P :=
  .of_faults fun _ => ⟨_, rfl⟩

theorem ensures_here : Ensures here fun _ => True :=
  .of_rest fun _ _ _ h => by cases h; exact ⟨rfl, trivial⟩

theorem ensures_last : Ensures last fun _ => True :=
  .of_rest fun _ _ _ h => by cases h; exact ⟨rfl, trivial⟩

theorem ensures_spanFrom (start : Span) : Ensures (spanFrom start) fun _ => True :=
  .of_rest fun _ _ _ h => by cases h; exact ⟨rfl, trivial⟩

theorem ensures_peekAt (n : Nat) : Ensures (peekAt n) fun _ => True :=
  .of_rest fun _ _ _ h => by cases h; exact ⟨rfl, trivial⟩

theorem ensures_peek : Ensures peek fun _ => True := ensures_peekAt 0

theorem ensures_at (kind : Token.Kind) : Ensures (at? kind) fun _ => True :=
  ensures_peek.bind fun _ _ => .pure trivial

theorem ensures_advance : Ensures advance fun _ => True := by
  rintro ⟨ts, last, stop, depth⟩ d _ hc h
  obtain rfl := yields_modify.1 h
  cases ts with
  | nil => exact ⟨hc, trivial⟩
  | cons t ts => exact ⟨fun s hs => hc s (List.mem_cons_of_mem _ hs), trivial⟩

theorem ensures_accept (kind : Token.Kind) : Ensures (accept kind) fun _ => True :=
  (ensures_at kind).bind fun _ _ =>
    .ite (fun _ => ensures_advance.bind fun _ _ => .pure trivial) fun _ => .pure trivial

theorem ensures_expect (kind : Token.Kind) :
    Ensures (expect kind) fun t => t.kind = kind ∧ Token.IsNamed t := by
  intro c d t hc h
  obtain ⟨hkind, ts, hrest, rfl⟩ := yields_expect.1 h
  rw [Cursor.IsNamed, hrest, List.forall_mem_cons] at hc
  exact ⟨hc.2, hkind, hc.1⟩

theorem ensures_descend : Ensures descend fun _ => True := by
  intro c d _ hc h
  obtain ⟨-, rfl⟩ := yields_descend.1 h
  exact ⟨hc, trivial⟩

theorem ensures_keepDepth (hp : Ensures p P) : Ensures (keepDepth p) P := by
  intro c d x hc h
  obtain ⟨e, he, rfl⟩ := yields_keepDepth.1 h
  have hkept : e.IsNamed ∧ P x := hp hc he
  exact hkept

theorem ensures_nested (hp : Ensures p P) : Ensures (nested p) P :=
  ensures_keepDepth (ensures_descend.bind fun _ _ => hp)

theorem ensures_manyUpTo {step : Parser (Option α)} (h : Ensures step fun o => ∀ x ∈ o, P x)
    (n : Nat) : Ensures (manyUpTo step n) fun xs => ∀ x ∈ xs, P x := by
  induction n with
  | zero => exact .pure nofun
  | succ n ih =>
    refine h.bind fun o ho => ?_
    cases o with
    | none => exact .pure nofun
    | some x => exact ih.bind fun xs hxs => .pure (List.forall_mem_cons.2 ⟨ho x rfl, hxs⟩)

theorem ensures_many {step : Parser (Option α)} (h : Ensures step fun o => ∀ x ∈ o, P x) :
    Ensures (many step) fun xs => ∀ x ∈ xs, P x := by
  have hget : Ensures (get : Parser Cursor) fun _ => True :=
    .of_rest fun _ _ _ h => by cases h; exact ⟨rfl, trivial⟩
  exact hget.bind fun _ _ => ensures_manyUpTo h _

theorem ensures_some (h : Ensures p P) : Ensures (some <$> p) fun o => ∀ x ∈ o, P x :=
  h.map fun _ hx _ hy => Option.some.inj hy ▸ hx

theorem ensures_none : Ensures (pure none : Parser (Option α)) fun o => ∀ x ∈ o, P x :=
  .pure nofun

theorem ensures_nextItem {close : Token.Kind} {item : Parser α} (h : Ensures item P) :
    Ensures (nextItem close item) fun o => ∀ x ∈ o, P x := by
  refine (ensures_accept _).bind fun _ _ => .ite (fun _ => ?_) fun _ => ensures_none
  exact (ensures_at close).bind fun _ _ => .ite (fun _ => ensures_none) fun _ =>
    h.bind fun x hx => .pure fun y hy => Option.some.inj hy ▸ hx

theorem ensures_listUntil {close : Token.Kind} {item : Parser α} (h : Ensures item P) :
    Ensures (listUntil close item) fun xs => ∀ x ∈ xs, P x := by
  have hend : ∀ xs : List α, (∀ x ∈ xs, P x) → Ensures (do
      let _ ← expect close
      return xs) fun xs => ∀ x ∈ xs, P x :=
    fun xs hxs => (ensures_expect close).bind fun _ _ => .pure hxs
  refine (ensures_at close).bind fun b _ => .ite (fun _ => ?_) fun _ => ?_
  · exact (Ensures.pure (P := fun xs : List α => xs = []) rfl).bind fun xs hxs =>
      hend xs (by rw [hxs]; nofun)
  · refine h.bind fun x hx => (ensures_many (ensures_nextItem h)).bind fun xs hxs => ?_
    exact (Ensures.pure (P := fun ys => ys = x :: xs) rfl).bind fun ys hys =>
      hend ys (by rw [hys]; exact List.forall_mem_cons.2 ⟨hx, hxs⟩)

end Parser

end Source

end TextGrammar
