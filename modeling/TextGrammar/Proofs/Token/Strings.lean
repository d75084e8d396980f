import TextGrammar.Proofs.Display.Words

/-! # What stands between quotes

The lexer takes what stands between two quotes apart like the decoder does: into escapes, each a
backslash and the character that it takes along, and characters that stand for themselves. -/

namespace TextGrammar

namespace Token

inductive Enclosed : List Char → Prop
  | nil : Enclosed []
  | plain {c : Char} {cs : List Char} (hc : c ∉ ['"', '\\', '\n']) (h : Enclosed cs) :
    Enclosed (c :: cs)
  | escape {c : Char} {cs : List Char} (h : Enclosed cs) : Enclosed ('\\' :: c :: cs)

namespace Enclosed
variable {body cs : List Char}

theorem append (h : Enclosed body) (hcs : Enclosed cs) : Enclosed (body ++ cs) := by
  induction h with
  | nil => exact hcs
  | plain hc h ih => exact .plain hc ih
  | escape h ih => exact .escape ih

theorem of_forall (h : ∀ c ∈ body, c ∉ ['"', '\\', '\n']) : Enclosed body := by
  induction body with
  | nil => exact .nil
  | cons c body ih =>
    rw [List.forall_mem_cons] at h
    exact .plain h.1 (ih h.2)

theorem flatMap {write : Char → List Char} {text : List Char}
    (h : ∀ c ∈ text, Enclosed (write c)) : Enclosed (text.flatMap write) := by
  induction text with
  | nil => exact .nil
  | cons c text ih =>
    rw [List.forall_mem_cons] at h
    exact h.1.append (ih h.2)

theorem stringBody_eq (h : Enclosed body) (cs : List Char) :
    stringBody (body ++ '"' :: cs) = (true, body.length + 1) := by
  induction h with
  | nil => rfl
  | plain hc h ih =>
    simp only [List.mem_cons, List.not_mem_nil, or_false, not_or] at hc
    obtain ⟨hquote, hslash, hfeed⟩ := hc
    rw [List.cons_append, stringBody, ih]
    · rfl
    · exact hquote
    · exact hfeed
    · exact fun _ _ heq => absurd heq hslash
  | escape h ih =>
    rw [List.cons_append, List.cons_append, stringBody, ih]
    rfl

end Enclosed

/-- A string goes on up to the first quote that no backslash takes along. -/
theorem enclosed_of_stringBody {cs : List Char} (h : (stringBody cs).1 = true) :
    ∃ body back, cs = body ++ '"' :: back ∧ Enclosed body := by
  fun_induction stringBody cs with
  | case1 => cases h
  | case2 back => exact ⟨[], back, rfl, .nil⟩
  | case3 => cases h
  | case4 c cs closed n heq ih =>
    rw [heq] at ih
    obtain ⟨body, back, rfl, hbody⟩ := ih h
    exact ⟨'\\' :: c :: body, back, rfl, .escape hbody⟩
  | case5 c cs hquote hfeed hslash closed n heq ih =>
    rw [heq] at ih
    obtain ⟨body, back, rfl, hbody⟩ := ih h
    refine ⟨c :: body, back, rfl, .plain ?_ hbody⟩
    -- A backslash always takes a character along here, the closing quote if nothing else.
    have hescape : c ≠ '\\' := by
      rintro rfl
      cases body with
      | nil => exact hslash _ _ rfl rfl
      | cons d body => exact hslash _ _ rfl rfl
    simp_all

theorem lexeme_enclosed {body : List Char} (h : Enclosed body) (cs : List Char) :
    lexeme '"' ((body ++ ['"']) ++ cs) = (some .string, (body ++ ['"']).length) := by
  have hbody := h.stringBody_eq cs
  rw [List.append_assoc, List.length_append]
  change (some (if (stringBody (body ++ '"' :: cs)).1 then Kind.string else Kind.invalid),
    (stringBody (body ++ '"' :: cs)).2) = _
  rw [hbody]
  rfl

/-- A string token is the text between two quotes. -/
theorem enclosed_of_lexeme {c : Char} {cs : List Char} {n : Nat}
    (h : lexeme c cs = (some .string, n)) :
    ∃ body back, c = '"' ∧ cs = body ++ '"' :: back ∧ n = body.length + 1 ∧ Enclosed body := by
  unfold lexeme at h
  split at h
  · cases h
  split at h
  · cases h
  split at h
  · obtain rfl := beq_iff_eq.1 ‹(c == '"') = true›
    obtain ⟨hkind, rfl⟩ := Prod.mk.inj h
    cases hclosed : (stringBody cs).1 with
    | false =>
      rw [hclosed] at hkind
      cases hkind
    | true =>
      obtain ⟨body, back, rfl, hbody⟩ := enclosed_of_stringBody hclosed
      exact ⟨body, back, rfl, rfl, by rw [hbody.stringBody_eq], hbody⟩
  split at h
  · cases h
  split at h
  · dsimp only at h
    split at h <;> cases h
  split at h
  · cases h
  · split at h <;> cases h

/-- The text between two quotes is one string, whatever stands behind it. -/
theorem words_enclosed {body : List Char} (h : Enclosed body) (cs : List Char) :
    words ('"' :: (body ++ ['"']) ++ cs) = (.string, '"' :: (body ++ ['"'])) :: words cs :=
  words_of_lexeme '"' (body ++ ['"']) cs (lexeme_enclosed h cs)

theorem lex_enclosed {body : List Char} (h : Enclosed body) :
    lex ('"' :: (body ++ ['"'])) =
      [⟨.string, ⟨0, Text.byteLength ('"' :: (body ++ ['"']))⟩, '"' :: (body ++ ['"'])⟩] := by
  have hlexeme := lexeme_enclosed h []
  rw [List.append_nil] at hlexeme
  exact lex_of_lexeme hlexeme

end Token

namespace Literal

/-- A text stands for a single character. -/
inductive Spells : List Char → Char → Prop
  | plain {c : Char} (hc : c ≠ '\\') : Spells [c] c
  | escape {e c : Char} (he : escaped? e = some c) : Spells ['\\', e] c

theorem decodeBody_plain {c : Char} (hc : c ≠ '\\') (start : Nat) (cs : List Char) :
    decodeBody start (c :: cs) = (decodeBody (start + c.utf8Size) cs).map (c :: ·) := by
  rw [decodeBody]
  · exact fun heq => absurd heq hc
  · exact fun _ _ heq => absurd heq hc

theorem Spells.decodeBody_append {text : List Char} {c : Char} (h : Spells text c) (start : Nat)
    (cs : List Char) :
    decodeBody start (text ++ cs) =
      (decodeBody (start + Text.byteLength text) cs).map (c :: ·) := by
  cases h with
  | plain hc => exact decodeBody_plain hc start cs
  | @escape e c he =>
    have hlength : start + Text.byteLength ['\\', e] = start + 1 + e.utf8Size := by
      rw [Nat.add_assoc]
      rfl
    simp only [hlength, List.cons_append, List.nil_append, decodeBody, he]

/-- Characters that are spelled one after the other are read, and then what stands behind them. -/
theorem decodeBody_append {spell : Char → List Char} {text : List Char}
    (h : ∀ c ∈ text, Spells (spell c) c) (start : Nat) (cs : List Char) :
    decodeBody start (text.flatMap spell ++ cs) =
      (decodeBody (start + Text.byteLength (text.flatMap spell)) cs).map (text ++ ·) := by
  induction text generalizing start with
  | nil =>
    change decodeBody start cs = (decodeBody start cs).map ([] ++ ·)
    cases decodeBody start cs <;> rfl
  | cons c text ih =>
    rw [List.forall_mem_cons] at h
    rw [List.flatMap_cons, List.append_assoc, h.1.decodeBody_append, ih h.2,
      Text.byteLength_append, ← Nat.add_assoc]
    cases decodeBody _ cs <;> rfl

/-- A text is read from between its quotes. -/
theorem decode_enclosed (body : List Char) :
    decode ('"' :: (body ++ ['"'])) = decodeBody 1 body := by
  have hbody : body? ('"' :: (body ++ ['"'])) = some body := by
    simp [body?]
  simp only [decode, hbody]

theorem decode_spelled {spell : Char → List Char} {text : List Char}
    (h : ∀ c ∈ text, Spells (spell c) c) :
    decode ('"' :: (text.flatMap spell ++ ['"'])) = .ok text := by
  have hread := decodeBody_append h 1 []
  rw [List.append_nil] at hread
  rw [decode_enclosed, hread]
  simp [decodeBody, Except.map]

/-- A text that is a literal from its start to its end is decoded as a whole. -/
theorem extract_all (text : List Char) :
    extract text ⟨0, Text.byteLength text⟩ = decode text := by
  have hslice := Text.slice?_append [] text []
  rw [List.nil_append, List.append_nil, Text.byteLength_nil, Nat.zero_add] at hslice
  simp only [extract, hslice, Option.getD_some]
  cases decode text with
  | error fault =>
    change Except.error (0 + fault.1, fault.2) = _
    rw [Nat.zero_add]
  | ok text => rfl

end Literal

end TextGrammar
