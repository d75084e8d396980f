import TextGrammar.Proofs.Json.Grammar

/-! # Decoding JSON

A decoder that finds what a text denotes, and nothing for a text that is not JSON. It reads the
parts of a text from its front; how deep values nest is bounded by the length of the text, which
the decoder counts down. -/

namespace TextGrammar.Json
variable {α : Type}

/-- What stands behind a part: not the rest of a number. -/
def Ends (rest : List Char) : Prop := ∀ c ∈ rest.head?, isNumberChar c = false

/-- A reader takes from the front of a text exactly what is spelled there, as long as that is not
longer than a bound. -/
structure Reads (spells : α → List Char → Prop) (bound : Nat)
    (read : List Char → Option (α × List Char)) : Prop where
  sound : ∀ {text x rest}, read text = some (x, rest) →
    ∃ front, text = front ++ rest ∧ spells x front
  complete : ∀ {x front rest}, spells x front → front.length ≤ bound → Ends rest →
    read (front ++ rest) = some (x, rest)

def skip (text : List Char) : List Char := text.dropWhile isBlank

theorem exists_skip (text : List Char) : ∃ blank, Blank blank ∧ text = blank ++ skip text :=
  ⟨_, fun _ hc => List.mem_takeWhile_imp hc, (List.takeWhile_append_dropWhile).symm⟩

theorem skip_cons {blank rest : List Char} {c : Char} (hblank : Blank blank)
    (hc : isBlank c = false) : skip (blank ++ c :: rest) = c :: rest := by
  rw [skip, List.dropWhile_append_of_pos hblank, List.dropWhile_cons_of_neg (by simp [hc])]

theorem skip_opens {blank text : List Char} (hblank : Blank blank) (htext : Opens text)
    (rest : List Char) : skip (blank ++ (text ++ rest)) = text ++ rest := by
  obtain ⟨c, more, rfl, hc, -, -⟩ := htext
  exact skip_cons hblank hc

theorem isNumberChar_of_isBlank {c : Char} (h : isBlank c = true) : isNumberChar c = false := by
  simp only [isBlank, Bool.or_eq_true, beq_iff_eq] at h
  obtain ((rfl | rfl) | rfl) | rfl := h <;> rfl

theorem ends_nil : Ends [] := nofun

theorem Ends.blanks {blank rest : List Char} (hblank : Blank blank) (hrest : Ends rest) :
    Ends (blank ++ rest) := by
  cases blank with
  | nil => exact hrest
  | cons c more =>
    rintro _ ⟨⟩
    exact isNumberChar_of_isBlank (hblank c List.mem_cons_self)

theorem ends_cons {c : Char} (hc : isNumberChar c = false) (rest : List Char) :
    Ends (c :: rest) := by
  rintro _ ⟨⟩
  exact hc

def codeUnit? (text : List Char) : Option (Nat × List Char) :=
  (hexCode? (text.take 4)).map fun n => (n, text.drop 4)

/-- Reads the code units of a character behind the first backslash and its letter. -/
def unicode? (text : List Char) : Option (Char × List Char) :=
  match codeUnit? text with
  | none => none
  | some (n, rest) =>
    if n.isValidChar then some (Char.ofNat n, rest)
    else
      match rest with
      | '\\' :: 'u' :: rest =>
        match codeUnit? rest with
        | none => none
        | some (low, rest) =>
          if n < 0xDC00 ∧ 0xDC00 ≤ low ∧ low < 0xE000 then
            some (Char.ofNat (pairCode n low), rest)
          else none
      | _ => none

def char? : List Char → Option (Char × List Char)
  | '\\' :: 'u' :: rest => unicode? rest
  | '\\' :: letter :: rest => (escape? letter).map fun c => (c, rest)
  | c :: rest => if 0x20 ≤ c.toNat ∧ c ≠ '"' ∧ c ≠ '\\' then some (c, rest) else none
  | [] => none

def characters? : Nat → List Char → Option (List Char × List Char)
  | 0, _ => none
  | n + 1, text =>
    match text with
    | '"' :: rest => some ([], rest)
    | _ =>
      match char? text with
      | none => none
      | some (c, rest) =>
        match characters? n rest with
        | none => none
        | some (cs, rest) => some (c :: cs, rest)

def string? : List Char → Option (String × List Char)
  | '"' :: rest => (characters? rest.length rest).map fun (cs, rest) => (String.ofList cs, rest)
  | _ => none

theorem length_of_hexCode? {ds : List Char} {n : Nat} (h : hexCode? ds = some n) :
    ds.length = 4 := by
  unfold hexCode? at h
  split at h
  · rfl
  · cases h

theorem codeUnit?_eq_some_iff {text rest : List Char} {n : Nat} :
    codeUnit? text = some (n, rest) ↔ ∃ ds, hexCode? ds = some n ∧ text = ds ++ rest := by
  rw [codeUnit?, Option.map_eq_some_iff]
  constructor
  · rintro ⟨m, hm, heq⟩
    cases heq
    exact ⟨_, hm, (List.take_append_drop 4 text).symm⟩
  · rintro ⟨ds, hds, rfl⟩
    have hlength := length_of_hexCode? hds
    exact ⟨n, by rw [List.take_left' hlength, hds], by rw [List.drop_left' hlength]⟩

theorem toNat_ofNat {n : Nat} (h : n.isValidChar) : (Char.ofNat n).toNat = n := by
  rw [Char.ofNat, dif_pos h]
  rfl

/-- A pair of code units is the code of a character. -/
theorem isValidChar_pair {high low : Nat} (hhigh : high < 0xDC00) (hlow : low < 0xE000) :
    (pairCode high low).isValidChar := by
  right
  unfold pairCode
  omega

theorem unicode?_sound {text rest : List Char} {c : Char} (h : unicode? text = some (c, rest)) :
    ∃ front, text = front ++ rest ∧ SpellsChar c ('\\' :: 'u' :: front) := by
  unfold unicode? at h
  split at h
  · cases h
  · rename_i n back hn
    obtain ⟨ds, hds, rfl⟩ := codeUnit?_eq_some_iff.1 hn
    by_cases hvalid : n.isValidChar
    · rw [if_pos hvalid] at h
      cases h
      refine ⟨ds, rfl, .code ?_⟩
      rw [hds, toNat_ofNat hvalid]
    · rw [if_neg hvalid] at h
      split at h
      · split at h
        · cases h
        · rename_i low back hlow
          obtain ⟨ls, hls, rfl⟩ := codeUnit?_eq_some_iff.1 hlow
          split at h
          · rename_i hpair
            obtain ⟨rfl, rfl⟩ := Prod.mk.inj (Option.some.inj h)
            have hhigh : 0xD800 ≤ n := Nat.le_of_not_lt fun hlt => hvalid (.inl hlt)
            refine ⟨ds ++ '\\' :: 'u' :: ls, by simp, .pair hds hls ⟨hhigh, hpair.1⟩ hpair.2 ?_⟩
            rw [toNat_ofNat (isValidChar_pair hpair.1 hpair.2.2)]
          · cases h
      · cases h

theorem unicode?_code {ds : List Char} {c : Char} (h : hexCode? ds = some c.toNat)
    (rest : List Char) : unicode? (ds ++ rest) = some (c, rest) := by
  rw [unicode?, codeUnit?_eq_some_iff.2 ⟨ds, h, rfl⟩]
  exact (if_pos c.valid).trans (by rw [Char.ofNat_toNat])

theorem unicode?_pair {hs ls : List Char} {high low : Nat} {c : Char}
    (hhs : hexCode? hs = some high) (hls : hexCode? ls = some low)
    (hhigh : 0xD800 ≤ high ∧ high < 0xDC00) (hlow : 0xDC00 ≤ low ∧ low < 0xE000)
    (hc : c.toNat = pairCode high low) (rest : List Char) :
    unicode? (hs ++ '\\' :: 'u' :: (ls ++ rest)) = some (c, rest) := by
  have hinvalid : ¬high.isValidChar := by
    rintro (hlt | hlt)
    · omega
    · omega
  rw [unicode?, codeUnit?_eq_some_iff.2 ⟨hs, hhs, rfl⟩]
  simp only [if_neg hinvalid, codeUnit?_eq_some_iff.2 ⟨ls, hls, rfl⟩]
  rw [if_pos ⟨hhigh.2, hlow⟩, ← hc, Char.ofNat_toNat]

theorem char?_plain {c : Char} (hcontrol : 0x20 ≤ c.toNat) (hquote : c ≠ '"') (hslash : c ≠ '\\')
    (rest : List Char) : char? (c :: rest) = some (c, rest) := by
  unfold char?
  split
  · rename_i heq
    cases heq
    exact absurd rfl hslash
  · rename_i heq
    cases heq
    exact absurd rfl hslash
  · rename_i heq
    cases heq
    exact if_pos ⟨hcontrol, hquote, hslash⟩
  · rename_i heq
    cases heq

theorem char?_letter {letter c : Char} (h : escape? letter = some c) (rest : List Char) :
    char? ('\\' :: letter :: rest) = some (c, rest) := by
  have hu : letter ≠ 'u' := by
    rintro rfl
    cases h
  rw [char?]
  · rw [h]
    rfl
  · exact hu

theorem char?_sound {text rest : List Char} {c : Char} (h : char? text = some (c, rest)) :
    ∃ front, text = front ++ rest ∧ SpellsChar c front := by
  unfold char? at h
  split at h
  · obtain ⟨front, rfl, hc⟩ := unicode?_sound h
    exact ⟨_, rfl, hc⟩
  · obtain ⟨d, hd, heq⟩ := Option.map_eq_some_iff.1 h
    cases heq
    exact ⟨_, rfl, .letter hd⟩
  · split at h
    · rename_i hc
      cases h
      exact ⟨[c], rfl, .plain hc.1 hc.2.1 hc.2.2⟩
    · cases h
  · cases h

theorem char?_complete {c : Char} {front : List Char} (h : SpellsChar c front)
    (rest : List Char) : char? (front ++ rest) = some (c, rest) := by
  cases h with
  | plain hcontrol hquote hslash => exact char?_plain hcontrol hquote hslash rest
  | letter hletter => exact char?_letter hletter rest
  | code hds => exact unicode?_code hds rest
  | pair hhs hls hhigh hlow hc =>
    rw [List.cons_append, List.cons_append, List.append_assoc]
    exact unicode?_pair hhs hls hhigh hlow hc rest

theorem characters?_sound {n : Nat} {text rest cs : List Char}
    (h : characters? n text = some (cs, rest)) :
    ∃ front, text = front ++ '"' :: rest ∧ SpellsChars cs front := by
  induction n generalizing text cs with
  | zero => cases h
  | succ n ih =>
    unfold characters? at h
    split at h
    · cases h
      exact ⟨[], rfl, .nil⟩
    · split at h
      · cases h
      · rename_i c back hc
        split at h
        · cases h
        · rename_i ds back hds
          cases h
          obtain ⟨front, rfl, hfront⟩ := char?_sound hc
          obtain ⟨more, rfl, hmore⟩ := ih hds
          exact ⟨front ++ more, (List.append_assoc _ _ _).symm, .cons hfront hmore⟩

/-- The spelling of a character starts with no quote. -/
theorem SpellsChar.exists_cons {c : Char} {front : List Char} (h : SpellsChar c front) :
    ∃ d more, front = d :: more ∧ d ≠ '"' := by
  cases h with
  | plain _ hquote _ => exact ⟨_, _, rfl, hquote⟩
  | letter | code | pair => exact ⟨_, _, rfl, by decide⟩

theorem characters?_complete {n : Nat} {cs front : List Char} (h : SpellsChars cs front)
    (hn : front.length < n) (rest : List Char) :
    characters? n (front ++ '"' :: rest) = some (cs, rest) := by
  induction h generalizing n with
  | nil =>
    obtain _ | n := n
    · cases hn
    · rfl
  | @cons c cs front back hc _ ih =>
    obtain _ | n := n
    · cases hn
    · have hchar := char?_complete hc (back ++ '"' :: rest)
      obtain ⟨d, more, rfl, hd⟩ := hc.exists_cons
      rw [List.length_append, List.length_cons] at hn
      have hback : back.length < n := by omega
      rw [List.append_assoc, List.cons_append] at *
      rw [characters?]
      · simp only [hchar, ih hback]
      · rintro _ ⟨⟩
        exact hd rfl

theorem string?_sound {text rest : List Char} {s : String} (h : string? text = some (s, rest)) :
    ∃ front, text = front ++ rest ∧ SpellsString s front := by
  unfold string? at h
  split at h
  · obtain ⟨⟨cs, back⟩, hcs, heq⟩ := Option.map_eq_some_iff.1 h
    cases heq
    obtain ⟨body, rfl, hbody⟩ := characters?_sound hcs
    exact ⟨_, by simp, .quoted hbody⟩
  · cases h

theorem string?_complete {s : String} {front : List Char} (h : SpellsString s front)
    (rest : List Char) : string? (front ++ rest) = some (s, rest) := by
  obtain ⟨hbody⟩ := h
  rw [List.cons_append, List.append_assoc, string?, List.singleton_append,
    characters?_complete hbody (by simp) rest]
  rfl

def isUnsigned (w : List Char) : Bool :=
  (Leaf.FloatParts.taken w).text == w && !(Leaf.FloatParts.taken w).whole.isEmpty &&
    ((Leaf.FloatParts.taken w).whole.head? != some '0' ||
      (Leaf.FloatParts.taken w).whole == ['0'])

def isNumber : List Char → Bool
  | '-' :: w => isUnsigned w
  | w => isUnsigned w

/-- Reads a number: the characters of numbers at the front of a text have to be one. -/
def number? (text : List Char) : Option (Document × List Char) :=
  if isNumber (text.takeWhile isNumberChar) then
    some (.number (text.takeWhile isNumberChar), text.dropWhile isNumberChar)
  else none

def word? (text : List Char) : Option (Document × List Char) :=
  (words.find? fun w => w.2.isPrefixOf text).map fun w => (w.1, text.drop w.2.length)

/-- The parts of a number are found in its spelling. -/
theorem taken_text {p : Leaf.FloatParts} (hp : p.Spelled) :
    (Leaf.FloatParts.taken p.text).text = p.text ∧
      (Leaf.FloatParts.taken p.text).whole = p.whole := by
  constructor
  · have hle := (hp.taken []).2
    rw [List.append_nil] at hle
    exact (Leaf.FloatParts.taken_front p.text).eq_of_length_le hle
  · change p.text.takeWhile Char.isDigit = p.whole
    rw [Leaf.FloatParts.text, List.takeWhile_append_of_pos hp.whole]
    -- Neither a fraction nor an exponent starts with a digit.
    have hrest : (p.fraction ++ p.exponent).takeWhile Char.isDigit = [] := by
      obtain hfraction | hfraction := hp.fraction
      · obtain hexponent | hexponent := hp.exponent
        · rw [hfraction, hexponent]
          rfl
        · obtain ⟨c, sign, ds, hmark, -, -, heq⟩ := Leaf.mem_exponents.1 hexponent
          rw [hfraction, heq]
          obtain rfl | rfl := hmark <;> rfl
      · obtain ⟨ds, -, heq⟩ := Leaf.mem_fractions.1 hfraction
        rw [heq]
        rfl
    rw [hrest, List.append_nil]

theorem isUnsigned_iff {w : List Char} : isUnsigned w = true ↔
    ∃ p : Leaf.FloatParts, p.Spelled ∧ p.whole ∈ wholes ∧ w = p.text := by
  simp only [isUnsigned, Bool.and_eq_true, Bool.or_eq_true, Bool.not_eq_true', beq_iff_eq,
    bne_iff_ne, List.isEmpty_eq_false_iff]
  constructor
  · rintro ⟨⟨htext, hne⟩, hzero⟩
    have hspelled := Leaf.FloatParts.taken_spelled (.inl hne)
    exact ⟨_, hspelled, ⟨⟨hne, hspelled.whole⟩, fun h => hzero.resolve_left (· h)⟩, htext.symm⟩
  · rintro ⟨p, hp, ⟨hdigits, hzero⟩, rfl⟩
    obtain ⟨htext, hwhole⟩ := taken_text hp
    rw [htext, hwhole]
    exact ⟨⟨rfl, hdigits.1⟩, not_or_of_imp hzero⟩

theorem isNumber_iff {w : List Char} : isNumber w = true ↔ w ∈ numbers := by
  rw [mem_numbers]
  unfold isNumber
  split
  · rename_i w
    rw [isUnsigned_iff]
    constructor
    · rintro ⟨p, hp, hwhole, rfl⟩
      exact ⟨['-'], .inr rfl, p, hp, hwhole, rfl⟩
    · rintro ⟨sign, rfl | rfl, p, hp, hwhole, heq⟩
      · -- A number without a sign starts with a digit.
        obtain ⟨d, ds, hds⟩ := List.exists_cons_of_ne_nil hwhole.1.1
        have hd := hp.whole d (hds ▸ List.mem_cons_self)
        rw [List.nil_append, Leaf.FloatParts.text, hds] at heq
        cases heq
        cases hd
      · exact ⟨p, hp, hwhole, (List.cons.inj heq).2⟩
  · rename_i hminus
    rw [isUnsigned_iff]
    constructor
    · rintro ⟨p, hp, hwhole, rfl⟩
      exact ⟨[], .inl rfl, p, hp, hwhole, rfl⟩
    · rintro ⟨sign, rfl | rfl, p, hp, hwhole, heq⟩
      · exact ⟨p, hp, hwhole, heq⟩
      · exact absurd heq (hminus _)

theorem number?_sound {text rest : List Char} {d : Document} (h : number? text = some (d, rest)) :
    ∃ front, text = front ++ rest ∧ Spells d front := by
  unfold number? at h
  split at h
  · rename_i hnumber
    cases h
    exact ⟨_, (List.takeWhile_append_dropWhile).symm, .number (isNumber_iff.1 hnumber)⟩
  · cases h

theorem number?_complete {w rest : List Char} (h : w ∈ numbers) (hrest : Ends rest) :
    number? (w ++ rest) = some (.number w, rest) := by
  have hchars := isNumberChar_of_mem_numbers h
  have hnone : rest.takeWhile isNumberChar = [] ∧ rest.dropWhile isNumberChar = rest := by
    cases rest with
    | nil => exact ⟨rfl, rfl⟩
    | cons c more =>
      have hc : ¬isNumberChar c = true := by simp [hrest c rfl]
      exact ⟨List.takeWhile_cons_of_neg hc, List.dropWhile_cons_of_neg hc⟩
  rw [number?, List.takeWhile_append_of_pos hchars, List.dropWhile_append_of_pos hchars, hnone.1,
    hnone.2, List.append_nil, if_pos (isNumber_iff.2 h)]

theorem word?_sound {text rest : List Char} {d : Document} (h : word? text = some (d, rest)) :
    ∃ front, text = front ++ rest ∧ Spells d front := by
  obtain ⟨⟨e, w⟩, hfind, heq⟩ := Option.map_eq_some_iff.1 h
  cases heq
  have hfront := List.find?_some hfind
  obtain ⟨back, rfl⟩ := List.isPrefixOf_iff_prefix.1 hfront
  exact ⟨w, by rw [List.drop_left], .word (List.mem_of_find?_eq_some hfind)⟩

theorem word?_complete {w : List Char} {d : Document} (h : (d, w) ∈ words) (rest : List Char) :
    word? (w ++ rest) = some (d, rest) := by
  simp only [words, List.mem_cons, Prod.mk.injEq, List.not_mem_nil, or_false] at h
  obtain ⟨rfl, rfl⟩ | ⟨rfl, rfl⟩ | ⟨rfl, rfl⟩ := h <;> rfl

/-- A number is no word. -/
theorem word?_number {w : List Char} (h : w ∈ numbers) (rest : List Char) :
    word? (w ++ rest) = none := by
  obtain ⟨c, more, rfl, hc⟩ := exists_cons_of_mem_numbers h
  have hne : 'n' ≠ c ∧ 't' ≠ c ∧ 'f' ≠ c := by
    refine ⟨?_, ?_, ?_⟩ <;> (rintro rfl; revert hc; decide)
  simp [word?, words, hne]

def row? (close : Char) (read : List Char → Option (α × List Char)) :
    Nat → List Char → Option (List α × List Char)
  | 0, _ => none
  | n + 1, text =>
    match read text with
    | none => none
    | some (x, rest) =>
      match skip rest with
      | [] => none
      | c :: rest =>
        if c = close then some ([x], rest)
        else if c = ',' then
          match row? close read n (skip rest) with
          | none => none
          | some (xs, rest) => some (x :: xs, rest)
        else none

def enclosed? (close : Char) (read : List Char → Option (α × List Char)) (n : Nat)
    (text : List Char) : Option (List α × List Char) :=
  match skip text with
  | [] => none
  | c :: rest => if c = close then some ([], rest) else row? close read n (c :: rest)

def member? (read : List Char → Option (α × List Char)) (text : List Char) :
    Option ((String × α) × List Char) :=
  match string? text with
  | none => none
  | some (name, rest) =>
    match skip rest with
    | ':' :: rest =>
      match read (skip rest) with
      | none => none
      | some (x, rest) => some ((name, x), rest)
    | _ => none

section
variable {close : Char} {spells : α → List Char → Prop} {bound n : Nat}
  {read : List Char → Option (α × List Char)}

def Closes (close : Char) : Prop := close = ']' ∨ close = '\x7d'

theorem Closes.marks (h : Closes close) :
    isBlank close = false ∧ isNumberChar close = false ∧ ',' ≠ close := by
  obtain rfl | rfl := h <;> exact ⟨rfl, rfl, by decide⟩

/-- A row is read as its first text, and either the closing bracket or a comma and more texts. -/
theorem row?_cases {text rest : List Char} {xs : List α}
    (h : row? close read (n + 1) text = some (xs, rest)) :
    ∃ x back, read text = some (x, back) ∧
      ((skip back = close :: rest ∧ xs = [x]) ∨ ∃ more ys, skip back = ',' :: more ∧
        row? close read n (skip more) = some (ys, rest) ∧ xs = x :: ys) := by
  unfold row? at h
  split at h
  · cases h
  · rename_i x back hx
    split at h
    · cases h
    · rename_i c more hskip
      split at h
      · rename_i hc
        cases h
        exact ⟨x, back, hx, .inl ⟨hc ▸ hskip, rfl⟩⟩
      · split at h
        · rename_i hc
          split at h
          · cases h
          · rename_i ys _ hys
            cases h
            exact ⟨x, back, hx, .inr ⟨more, ys, hc ▸ hskip, hys, rfl⟩⟩
        · cases h

theorem row?_sound (hread : Reads spells bound read) {text rest : List Char} {xs : List α}
    (h : row? close read n text = some (xs, rest)) :
    ∃ front, text = front ++ rest ∧ Row close spells xs front := by
  induction n generalizing text xs with
  | zero => cases h
  | succ n ih =>
    obtain ⟨x, back, hx, hbehind⟩ := row?_cases h
    obtain ⟨front, rfl, hfront⟩ := hread.sound hx
    obtain ⟨after, hafter, hback⟩ := exists_skip back
    obtain ⟨hskip, rfl⟩ | ⟨more, ys, hskip, hys, rfl⟩ := hbehind
    · rw [hback, hskip]
      exact ⟨_, by simp, .last hfront hafter⟩
    · obtain ⟨before, hbefore, hmore⟩ := exists_skip more
      obtain ⟨row, heq, hrow⟩ := ih hys
      rw [hback, hskip, hmore, heq]
      exact ⟨_, by simp, .next hfront hafter hbefore hrow⟩

theorem row?_complete (hclose : Closes close) (hopens : ∀ {x text}, spells x text → Opens text)
    (hread : Reads spells bound read) {xs : List α} {front : List Char}
    (h : Row close spells xs front) (hlength : front.length ≤ n) (hn : n ≤ bound)
    (rest : List Char) : row? close read n (front ++ rest) = some (xs, rest) := by
  obtain ⟨hblank, hnumber, hcomma⟩ := hclose.marks
  induction h generalizing n with
  | @last x text after hx hafter =>
    simp only [List.length_append, List.length_singleton] at hlength
    obtain _ | n := n
    · exact absurd hlength (by omega)
    · have hfirst := hread.complete hx (by omega)
        (.blanks hafter (ends_cons hnumber rest))
      simp only [List.append_assoc, List.singleton_append, row?, hfirst, skip_cons hafter hblank,
        if_true]
  | @next x xs text after before more hx hafter hbefore hmore ih =>
    simp only [List.length_append, List.length_cons] at hlength
    obtain _ | n := n
    · exact absurd hlength (by omega)
    · have hfirst := hread.complete hx (by omega)
        (.blanks hafter (ends_cons (c := ',') rfl (before ++ (more ++ rest))))
      have hrest := ih (n := n) (by omega) (by omega)
      simp only [List.append_assoc, List.cons_append, row?, hfirst, skip_cons hafter (c := ',') rfl,
        if_neg hcomma, if_true, skip_opens hbefore (hmore.opens hopens), hrest]

theorem enclosed?_sound (hread : Reads spells bound read) {text rest : List Char} {xs : List α}
    (h : enclosed? close read n text = some (xs, rest)) :
    ∃ front, text = front ++ rest ∧ Enclosed close spells xs front := by
  obtain ⟨blank, hblank, htext⟩ := exists_skip text
  unfold enclosed? at h
  split at h
  · cases h
  · rename_i c back hskip
    split at h
    · rename_i hc
      cases h
      exact ⟨_, by rw [htext, hskip, hc]; simp, .empty hblank⟩
    · obtain ⟨front, hfront, hrow⟩ := row?_sound hread h
      exact ⟨blank ++ front, by rw [htext, hskip, hfront, List.append_assoc], .row hblank hrow⟩

theorem enclosed?_complete (hclose : Closes close)
    (hopens : ∀ {x text}, spells x text → Opens text) (hread : Reads spells bound read)
    {xs : List α} {front : List Char} (h : Enclosed close spells xs front)
    (hlength : front.length ≤ bound) (rest : List Char) :
    enclosed? close read bound (front ++ rest) = some (xs, rest) := by
  cases h with
  | empty hblank =>
    simp [enclosed?, skip_cons hblank hclose.marks.1]
  | row hblank hrow =>
    rw [List.length_append] at hlength
    have hrest := row?_complete hclose hopens hread hrow (by omega) le_rfl rest
    have hskip := skip_opens hblank (hrow.opens hopens) rest
    obtain ⟨c, more, rfl, -, hc⟩ := hrow.opens hopens
    have hne : c ≠ close := by
      rintro rfl
      exact hclose.elim hc.1 hc.2
    rw [List.append_assoc, enclosed?, hskip]
    simp only [List.cons_append, if_neg hne] at hrest ⊢
    exact hrest

theorem member?_reads (hopens : ∀ {x text}, spells x text → Opens text)
    (hread : Reads spells bound read) : Reads (SpellsMember spells) bound (member? read) where
  sound {text m rest} h := by
    unfold member? at h
    split at h
    · cases h
    · rename_i name back hname
      obtain ⟨spelled, rfl, hspelled⟩ := string?_sound hname
      obtain ⟨after, hafter, hback⟩ := exists_skip back
      split at h
      · rename_i back' hskip
        split at h
        · cases h
        · rename_i x back hx
          cases h
          obtain ⟨before, hbefore, heq⟩ := exists_skip back'
          obtain ⟨more, hmore, hspells⟩ := hread.sound hx
          refine ⟨_, ?_, .named hspelled hafter hbefore hspells⟩
          rw [hback, hskip, heq, hmore]
          simp
      · cases h
  complete {m front rest} h hlength hrest := by
    obtain ⟨hspelled, hafter, hbefore, hspells⟩ := h
    simp only [List.length_append, List.length_cons] at hlength
    have hvalue := hread.complete hspells (by omega) hrest
    simp only [List.append_assoc, List.cons_append, member?, string?_complete hspelled,
      skip_cons hafter (c := ':') rfl, skip_opens hbefore (hopens hspells), hvalue]

end

def document? : Nat → List Char → Option (Document × List Char)
  | 0, _ => none
  | n + 1, text =>
    match text with
    | '"' :: _ => (string? text).map fun p => (.string p.1, p.2)
    | '[' :: rest => (enclosed? ']' (document? n) n rest).map fun p => (.array p.1, p.2)
    | '\x7b' :: rest =>
      (enclosed? '\x7d' (member? (document? n)) n rest).map fun p => (.object p.1, p.2)
    | _ => (word? text).or (number? text)

/-- The document that a text denotes, if the text is JSON. -/
def decode (text : String) : Option Document :=
  match document? text.toList.length (skip text.toList) with
  | none => none
  | some (d, rest) => if rest.all isBlank then some d else none

/-- Words and numbers are looked for where no string, array or object starts. -/
theorem document?_cons {c : Char} (hquote : c ≠ '"') (hsquare : c ≠ '[') (hcurly : c ≠ '\x7b')
    (n : Nat) (rest : List Char) :
    document? (n + 1) (c :: rest) = (word? (c :: rest)).or (number? (c :: rest)) := by
  rw [document?]
  · rintro _ ⟨⟩
    exact hquote rfl
  · rintro _ ⟨⟩
    exact hsquare rfl
  · rintro _ ⟨⟩
    exact hcurly rfl

theorem document?_word {w : List Char} {d : Document} (h : (d, w) ∈ words) (n : Nat)
    (rest : List Char) : document? (n + 1) (w ++ rest) = some (d, rest) := by
  have hword := word?_complete h rest
  simp only [words, List.mem_cons, Prod.mk.injEq, List.not_mem_nil, or_false] at h
  obtain ⟨rfl, rfl⟩ | ⟨rfl, rfl⟩ | ⟨rfl, rfl⟩ := h <;>
  · rw [List.cons_append] at hword ⊢
    rw [document?_cons (by decide) (by decide) (by decide), hword, Option.some_or]

theorem document?_number {w rest : List Char} (h : w ∈ numbers) (hrest : Ends rest) (n : Nat) :
    document? (n + 1) (w ++ rest) = some (.number w, rest) := by
  have hword := word?_number h rest
  have hnumber := number?_complete h hrest
  obtain ⟨c, more, rfl, hc⟩ := exists_cons_of_mem_numbers h
  have hne : c ≠ '"' ∧ c ≠ '[' ∧ c ≠ '\x7b' := by
    refine ⟨?_, ?_, ?_⟩ <;> (rintro rfl; revert hc; decide)
  rw [List.cons_append] at *
  rw [document?_cons hne.1 hne.2.1 hne.2.2, hword, hnumber, Option.none_or]

theorem document?_reads (n : Nat) : Reads Spells n (document? n) := by
  induction n with
  | zero =>
    refine ⟨nofun, fun h hlength => ?_⟩
    obtain ⟨c, more, rfl, -⟩ := h.opens
    cases hlength
  | succ n ih =>
    have hmember := member?_reads Spells.opens ih
    constructor
    · intro text d rest h
      unfold document? at h
      split at h
      · obtain ⟨⟨s, back⟩, hs, heq⟩ := Option.map_eq_some_iff.1 h
        cases heq
        obtain ⟨front, hfront, hspelled⟩ := string?_sound hs
        exact ⟨front, hfront, .string hspelled⟩
      · obtain ⟨⟨ds, back⟩, hds, heq⟩ := Option.map_eq_some_iff.1 h
        cases heq
        obtain ⟨front, rfl, hspelled⟩ := enclosed?_sound ih hds
        exact ⟨_, rfl, .array hspelled⟩
      · obtain ⟨⟨ms, back⟩, hms, heq⟩ := Option.map_eq_some_iff.1 h
        cases heq
        obtain ⟨front, rfl, hspelled⟩ := enclosed?_sound hmember hms
        exact ⟨_, rfl, .object hspelled⟩
      · obtain hword | ⟨-, hnumber⟩ := Option.or_eq_some_iff.1 h
        · exact word?_sound hword
        · exact number?_sound hnumber
    · intro d front rest h hlength hrest
      cases h with
      | word hmem => exact document?_word hmem n rest
      | number hmem => exact document?_number hmem hrest n
      | string hs =>
        have hstring := string?_complete hs rest
        obtain ⟨hbody⟩ := hs
        rw [List.cons_append] at *
        rw [document?, hstring]
        rfl
      | array hds =>
        rw [List.cons_append, document?, enclosed?_complete (.inl rfl) Spells.opens ih hds
          (Nat.le_of_succ_le_succ hlength)]
        rfl
      | object hms =>
        rw [List.cons_append, document?, enclosed?_complete (.inr rfl) SpellsMember.opens hmember
          hms (Nat.le_of_succ_le_succ hlength)]
        rfl

/-- The decoder is exact: it finds what a text denotes, and nothing else. -/
theorem decode_eq_some_iff {text : String} {d : Document} :
    decode text = some d ↔ Denotes d text.toList := by
  constructor
  · intro h
    obtain ⟨before, hbefore, htext⟩ := exists_skip text.toList
    unfold decode at h
    split at h
    · cases h
    · rename_i e rest hread
      split at h
      · rename_i hrest
        cases h
        obtain ⟨front, hfront, hspelled⟩ := (document?_reads _).sound hread
        rw [htext, hfront]
        exact .mk hbefore hspelled (List.all_eq_true.1 hrest)
      · cases h
  · intro h
    generalize htext : text.toList = cs at h
    obtain ⟨hbefore, hspelled, hafter⟩ := h
    have hends := Ends.blanks hafter ends_nil
    rw [List.append_nil] at hends
    rw [decode, htext, skip_opens hbefore hspelled.opens, (document?_reads _).complete hspelled
      (by simp only [List.length_append]; omega) hends]
    exact if_pos (List.all_eq_true.2 hafter)

/-- What is not quite JSON denotes nothing. -/
example : [" [ 1.5e+2 , \"\\uD83D\\uDE00\" ] ", "[1,]", "[01]", "[+1]", "[.5]", "[\"\n\"]",
    "[\"\\uD83D\"]", "[nul]", "[1] 2"].map (fun text => (decode text).isSome) =
    [true, false, false, false, false, false, false, false, false] := by
  decide

end TextGrammar.Json
