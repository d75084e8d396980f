import TextGrammar.Proofs.Display.Literals

/-! # Lexemes in front of other text

A lexeme takes no more characters than there are. A token is found again where its own text ends,
or where a space stands behind it: what it would have gone on with is not there. The one exception
is a string that the end of the text cuts off, which has nothing behind it. -/

namespace TextGrammar.Token

/-- A run is a front of the text, and what stands behind it does not go on with it. -/
theorem exists_run (p : Char → Bool) (cs : List Char) :
    ∃ front back, cs = front ++ back ∧ front.all p = true ∧ runLength p cs = front.length ∧
      ∀ c ∈ back.head?, p c = false := by
  refine ⟨cs.takeWhile p, cs.dropWhile p, List.takeWhile_append_dropWhile.symm,
    List.all_takeWhile, rfl, fun c hc => ?_⟩
  have hhead := List.head?_dropWhile_not p cs
  simpa [Option.mem_def.1 hc] using hhead

theorem runLength_le (p : Char → Bool) (cs : List Char) : runLength p cs ≤ cs.length :=
  (List.takeWhile_prefix p).length_le

theorem stringBody_le (cs : List Char) : (stringBody cs).2 ≤ cs.length := by
  fun_induction stringBody cs with
  | case1 => simp
  | case2 => simp
  | case3 => simp
  | case4 _ cs closed n h ih => simp_all
  | case5 _ cs _ _ _ closed n h ih => simp_all

/-- A number goes on with digits, and perhaps a point and digits. -/
theorem numberRest_cases (cs : List Char) :
    (∃ ds back, cs = ds ++ back ∧ ds.all Char.isDigit = true ∧ numberRest cs = ds.length) ∨
    ∃ ds d fraction back, cs = ds ++ '.' :: d :: (fraction ++ back) ∧
      ds.all Char.isDigit = true ∧ d.isDigit = true ∧ fraction.all Char.isDigit = true ∧
      numberRest cs = ds.length + 2 + fraction.length := by
  obtain ⟨ds, back, rfl, hds, hlength, -⟩ := exists_run Char.isDigit cs
  simp only [numberRest, hlength, List.drop_left]
  split
  · rename_i d more
    obtain ⟨fraction, back, rfl, hfraction, hlength', -⟩ := exists_run Char.isDigit more
    by_cases hd : d.isDigit = true
    · exact .inr ⟨ds, d, fraction, back, rfl, hds, hd, hfraction, by rw [if_pos hd, hlength']⟩
    · exact .inl ⟨ds, _, rfl, hds, if_neg hd⟩
  · exact .inl ⟨ds, back, rfl, hds, rfl⟩

theorem numberRest_le (cs : List Char) : numberRest cs ≤ cs.length := by
  obtain ⟨ds, back, rfl, -, h⟩ | ⟨ds, d, fraction, back, rfl, -, -, -, h⟩ := numberRest_cases cs
  · simp [h]
  · simp only [h, List.length_append, List.length_cons]
    omega

theorem dashesAt?_eq_some {c : Char} {cs : List Char} {n : Nat} (h : dashesAt? c cs = some n) :
    ∃ ds back, c = '-' ∧ cs = '-' :: '-' :: (ds ++ back) ∧ ds.all (· == '-') = true ∧
      n = ds.length + 2 := by
  unfold dashesAt? at h
  split at h
  · rename_i cs
    obtain ⟨ds, back, rfl, hds, hlength, -⟩ := exists_run (· == '-') cs
    cases h
    exact ⟨ds, back, rfl, rfl, hds, by omega⟩
  · cases h

theorem symbolAt?_le {c : Char} {cs : List Char} {s : Symbol} {n : Nat}
    (h : symbolAt? c cs = some (s, n)) : n ≤ cs.length := by
  unfold symbolAt? at h
  split at h <;> cases h <;> simp

theorem lexeme_le (c : Char) (cs : List Char) : (lexeme c cs).2 ≤ cs.length := by
  unfold lexeme
  split
  · exact runLength_le isBlank cs
  split
  · exact runLength_le (· != '\n') cs
  split
  · exact stringBody_le cs
  split
  · exact numberRest_le cs
  split
  · dsimp only
    split <;> exact runLength_le continuesWord cs
  cases hdashes : dashesAt? c cs with
  | some n =>
    obtain ⟨ds, back, -, rfl, -, rfl⟩ := dashesAt?_eq_some hdashes
    simp only [List.length_cons, List.length_append]
    omega
  | none =>
    cases hsymbol : symbolAt? c cs with
    | some found => exact symbolAt?_le hsymbol
    | none => exact Nat.zero_le _

def Spaced (back : List Char) : Prop := back = [] ∨ ∃ more, back = ' ' :: more

namespace Spaced
variable {back : List Char}

theorem apart (h : Spaced back) : Apart back = true := by
  obtain rfl | ⟨more, rfl⟩ := h <;> rfl

/-- A run of characters other than the space ends there. -/
theorem head_eq_false (h : Spaced back) {p : Char → Bool} (hp : p ' ' = false) :
    ∀ c ∈ back.head?, p c = false := by
  obtain rfl | ⟨more, rfl⟩ := h
  · nofun
  · rintro _ ⟨⟩
    exact hp

end Spaced

section
variable {body rest back : List Char}

theorem runLength_spaced {p : Char → Bool} (hp : p ' ' = false) (hback : Spaced back)
    (h : runLength p (body ++ rest) = body.length) : runLength p (body ++ back) = body.length := by
  obtain ⟨front, more, hsplit, hall, hlength, -⟩ := exists_run p (body ++ rest)
  obtain ⟨rfl, -⟩ := List.append_inj hsplit (by omega)
  exact runLength_append hall (hback.head_eq_false hp)

theorem numberRest_spaced (hback : Spaced back) (h : numberRest (body ++ rest) = body.length) :
    numberRest (body ++ back) = body.length := by
  obtain ⟨ds, more, hsplit, hds, hlength⟩ |
    ⟨ds, d, fraction, more, hsplit, hds, hd, hfraction, hlength⟩ := numberRest_cases (body ++ rest)
  · obtain ⟨rfl, -⟩ := List.append_inj hsplit (by omega)
    exact numberRest_digits hds hback.apart
  · have hsplit' : body ++ rest = (ds ++ '.' :: d :: fraction) ++ more := by
      simpa using hsplit
    obtain ⟨rfl, -⟩ := List.append_inj hsplit' (by
      simp only [List.length_append, List.length_cons]
      omega)
    rw [List.append_assoc, List.cons_append, List.cons_append,
      numberRest_decimal hds hd hfraction (head_isDigit_of_apart hback.apart)]
    simp only [List.length_append, List.length_cons]
    omega

/-- What closes a string, or cuts it off at a line feed, is a part of it. -/
theorem stringBody_take {cs : List Char} (hback : cs.drop (stringBody cs).2 ≠ [] ∨ back = []) :
    stringBody (cs.take (stringBody cs).2 ++ back) = stringBody cs := by
  fun_induction stringBody cs with
  | case1 =>
    obtain rfl : back = [] := by simpa using hback
    rfl
  | case2 => simp [stringBody]
  | case3 => simp [stringBody]
  | case4 x cs closed n h ih =>
    rw [h] at ih
    simp only [List.drop_succ_cons] at hback
    simp only [List.take_succ_cons, List.cons_append, stringBody, ih hback]
  | case5 c cs hquote hfeed hslash closed n h ih =>
    rw [h] at ih
    simp only [List.drop_succ_cons] at hback
    simp only [List.take_succ_cons, List.cons_append]
    -- A backslash at the end takes nothing along, and nothing stands behind it then.
    have halone : ∀ d ds, c = '\\' → cs.take n ++ back = d :: ds → False := by
      rintro d ds rfl heq
      cases cs with
      | nil => simp_all
      | cons e cs => exact hslash e cs rfl rfl
    rw [stringBody, ih hback]
    all_goals assumption

theorem stringBody_spaced (hback : rest ≠ [] ∨ back = []) {closed : Bool}
    (h : stringBody (body ++ rest) = (closed, body.length)) :
    stringBody (body ++ back) = (closed, body.length) := by
  have htake : stringBody ((body ++ rest).take (stringBody (body ++ rest)).2 ++ back) =
      stringBody (body ++ rest) := stringBody_take (by simpa [h] using hback)
  simpa [h] using htake

theorem dashesAt?_spaced (hback : Spaced back) {c : Char}
    (h : dashesAt? c (body ++ rest) = some body.length) :
    dashesAt? c (body ++ back) = some body.length := by
  obtain ⟨ds, more, rfl, hsplit, hds, hlength⟩ := dashesAt?_eq_some h
  have hsplit' : body ++ rest = ('-' :: '-' :: ds) ++ more := by simpa using hsplit
  obtain ⟨rfl, -⟩ := List.append_inj hsplit' hlength
  have hrun := runLength_append hds (hback.head_eq_false (p := (· == '-')) rfl)
  simp only [List.cons_append, dashesAt?, hrun, List.length_cons]
  congr 1
  omega

/-- A symbol of two characters shows the second one, and one of a single character is found
whenever that character stands there and nothing else with it. -/
theorem symbolAt?_spaced (hback : Spaced back) {c : Char} {s : Symbol}
    (h : symbolAt? c (body ++ rest) = some (s, body.length)) :
    symbolAt? c (body ++ back) = some (s, body.length) := by
  obtain rfl | ⟨more, rfl⟩ := hback
  all_goals
    cases body with
    | nil =>
      unfold symbolAt? at h
      split at h <;> cases h <;> rfl
    | cons d body =>
      unfold symbolAt? at h
      split at h <;> simp_all [symbolAt?]

def symbolStarts : List Char :=
  [':', '=', '<', '>', '!', '+', '.', '-', '*', ',', ';', '|', '(', ')', '\x7b', '\x7d', '[', ']']

theorem isSome_symbolAt? (c : Char) (cs : List Char) :
    (symbolAt? c cs).isSome = symbolStarts.contains c := by
  unfold symbolAt?
  split
  case h_28 => simp_all [symbolStarts]
  all_goals rfl

theorem symbolAt?_eq_none {c : Char} (h : symbolAt? c rest = none) (cs : List Char) :
    symbolAt? c cs = none := by
  have hnone : symbolStarts.contains c = false := by rw [← isSome_symbolAt? c rest, h]; rfl
  rw [← Option.not_isSome_iff_eq_none, isSome_symbolAt?, hnone]
  exact Bool.false_ne_true

theorem not_dashes_of_spaced (hback : Spaced back) (c : Char) : dashesAt? c back = none := by
  cases h : dashesAt? c back with
  | none => rfl
  | some n =>
    obtain ⟨ds, more, -, rfl, -⟩ := dashesAt?_eq_some h
    obtain heq | ⟨_, heq⟩ := hback <;> cases heq

/-- A minus is no start of a row of dashes if a space stands behind it. -/
theorem not_dashes_of_symbolAt? (hback : Spaced back) {c : Char} {s : Symbol}
    (h : symbolAt? c (body ++ rest) = some (s, body.length)) :
    dashesAt? c (body ++ back) = none := by
  cases body with
  | nil => exact not_dashes_of_spaced hback c
  | cons d body =>
    cases hdashes : dashesAt? c (d :: body ++ back) with
    | none => rfl
    | some n =>
      obtain ⟨_, _, rfl, -⟩ := dashesAt?_eq_some hdashes
      cases h

/-- What starts neither blanks nor a comment, string, number or word is a sign. -/
theorem lexeme_of_sign {c : Char}
    (hc : (isBlank c || c == '/' || c == '"' || c.isDigit || startsWord c) = false)
    (cs : List Char) :
    lexeme c cs =
      match dashesAt? c cs with
      | some n => (some .dashes, n)
      | none =>
        match symbolAt? c cs with
        | some (s, n) => (some (.symbol s), n)
        | none => (some .invalid, 0) := by
  simp only [Bool.or_eq_false_iff] at hc
  obtain ⟨⟨⟨⟨hblank, hslash⟩, hquote⟩, hdigit⟩, hword⟩ := hc
  cases hdashes : dashesAt? c cs with
  | some n =>
    simp [lexeme, hblank, hslash, hquote, hdigit, hword, hdashes]
  | none =>
    cases hsymbol : symbolAt? c cs <;>
      simp [lexeme, hblank, hslash, hquote, hdigit, hword, hdashes, hsymbol]

theorem lexeme_quote (cs : List Char) :
    lexeme '"' cs =
      (some (if (stringBody cs).1 then .string else .invalid), (stringBody cs).2) := rfl

theorem lexeme_slash {cs : List Char} (h : cs.head? ≠ some '/') :
    lexeme '/' cs = (some .invalid, 0) := by
  have hhead : (cs.head? == some '/') = false := beq_eq_false_iff_ne.2 h
  simp only [lexeme, hhead]
  rfl

/-- A token is found again in front of nothing, and in front of a space unless the end of the text
cut it off. -/
theorem lexeme_spaced (hback : Spaced back) (hend : rest ≠ [] ∨ back = []) {c : Char} {kind : Kind}
    (h : lexeme c (body ++ rest) = (some kind, body.length)) :
    lexeme c (body ++ back) = (some kind, body.length) := by
  by_cases hblank : isBlank c = true
  · simp [lexeme, hblank] at h
  by_cases hslash : c = '/'
  · subst hslash
    by_cases hnote : (body ++ rest).head? = some '/'
    · simp [lexeme, hblank, hnote] at h
    · have halone : back.head? ≠ some '/' := fun heq => by
        simpa using hback.head_eq_false (p := (· == '/')) rfl _ heq
      rw [lexeme_slash hnote, Prod.mk.injEq] at h
      obtain rfl := List.length_eq_zero_iff.1 h.2.symm
      rw [List.nil_append, lexeme_slash halone, h.1]
      rfl
  by_cases hquote : c = '"'
  · subst hquote
    rw [lexeme_quote, Prod.mk.injEq] at h ⊢
    have hsame := stringBody_spaced hend (Prod.ext rfl h.2)
    rw [hsame]
    exact ⟨h.1, rfl⟩
  by_cases hdigit : c.isDigit = true
  · rw [lexeme_of_isDigit hdigit, Prod.mk.injEq] at h ⊢
    exact ⟨h.1, numberRest_spaced hback h.2⟩
  by_cases hword : startsWord c = true
  · rw [lexeme_of_startsWord hword, Prod.mk.injEq] at h ⊢
    obtain ⟨hkind, hrun⟩ := h
    rw [hrun, List.take_left] at hkind
    have hrun' := runLength_spaced (p := continuesWord) rfl hback hrun
    rw [hrun', List.take_left]
    exact ⟨hkind, rfl⟩
  have hsign : (isBlank c || c == '/' || c == '"' || c.isDigit || startsWord c) = false := by
    simp [hblank, hslash, hquote, hdigit, hword]
  rw [lexeme_of_sign hsign] at h ⊢
  cases hdashes : dashesAt? c (body ++ rest) with
  | some n =>
    simp only [hdashes, Prod.mk.injEq] at h
    rw [h.2] at hdashes
    simp only [dashesAt?_spaced hback hdashes, h.1]
  | none =>
    cases hsymbol : symbolAt? c (body ++ rest) with
    | some found =>
      obtain ⟨s, n⟩ := found
      simp only [hdashes, hsymbol, Prod.mk.injEq] at h
      obtain ⟨hkind, rfl⟩ := h
      simp only [not_dashes_of_symbolAt? hback hsymbol, symbolAt?_spaced hback hsymbol, hkind]
    | none =>
      simp only [hdashes, hsymbol, Prod.mk.injEq] at h
      obtain rfl := List.length_eq_zero_iff.1 h.2.symm
      simp only [List.nil_append, not_dashes_of_spaced hback, symbolAt?_eq_none hsymbol, h.1,
        List.length_nil]

end

end TextGrammar.Token
