import TextGrammar.Proofs.Number.Lexemes

/-! # The grammar of JSON

What JSON texts are, and which document each of them denotes. A document keeps the members of an
object in the order of the text, and a number as it is spelled. Strings are compared character by
character: however a character is escaped, the document has the character. -/

namespace TextGrammar.Json

/-- What a JSON text denotes. -/
inductive Document where
  | null
  | bool (b : Bool)
  | number (lexeme : List Char)
  | string (s : String)
  | array (items : List Document)
  | object (members : List (String × Document))

/-- The characters that may stand between the parts of a text. -/
def isBlank (c : Char) : Bool := c == ' ' || c == '\n' || c == '\r' || c == '\t'

def Blank (cs : List Char) : Prop := ∀ c ∈ cs, isBlank c = true

theorem blank_nil : Blank [] := nofun

def wholes : Language Char := {ds | ds ∈ Leaf.digits ∧ (ds.head? = some '0' → ds = ['0'])}

/-- The spellings of numbers: a minus or none, a whole number, and perhaps a fraction and an
exponent. -/
def numbers : Language Char := (1 + {['-']}) * wholes * (1 + Leaf.fractions) * (1 + Leaf.exponents)

theorem mem_numbers {cs : List Char} : cs ∈ numbers ↔
    ∃ sign, (sign = [] ∨ sign = ['-']) ∧ ∃ p : Leaf.FloatParts, p.Spelled ∧ p.whole ∈ wholes ∧
      cs = sign ++ p.text := by
  constructor
  · rintro ⟨_, ⟨_, ⟨sign, hsign, whole, hwhole, rfl⟩, fraction, hfraction, rfl⟩, exponent,
      hexponent, rfl⟩
    exact ⟨sign, hsign, ⟨whole, fraction, exponent⟩,
      ⟨hwhole.1.2, hfraction, hexponent, .inl hwhole.1.1⟩, hwhole, by simp [Leaf.FloatParts.text]⟩
  · rintro ⟨sign, hsign, p, hp, hwhole, rfl⟩
    exact ⟨_, ⟨_, ⟨sign, hsign, _, hwhole, rfl⟩, _, hp.fraction, rfl⟩, _, hp.exponent,
      by simp [Leaf.FloatParts.text]⟩

def escape? : Char → Option Char
  | '"' => some '"'
  | '\\' => some '\\'
  | '/' => some '/'
  | 'b' => some '\x08'
  | 'f' => some '\x0c'
  | 'n' => some '\n'
  | 'r' => some '\r'
  | 't' => some '\t'
  | _ => none

def hexDigit? (c : Char) : Option Nat :=
  if c.isDigit then some (c.toNat - '0'.toNat)
  else if 'a' ≤ c ∧ c ≤ 'f' then some (c.toNat - 'a'.toNat + 10)
  else if 'A' ≤ c ∧ c ≤ 'F' then some (c.toNat - 'A'.toNat + 10)
  else none

def hexCode? : List Char → Option Nat
  | [a, b, c, d] => do
    return 0x1000 * (← hexDigit? a) + 0x100 * (← hexDigit? b) + 0x10 * (← hexDigit? c) +
      (← hexDigit? d)
  | _ => none

def pairCode (high low : Nat) : Nat := 0x10000 + 0x400 * (high - 0xD800) + (low - 0xDC00)

/-- How a character may be spelled in a string: as it is unless it is a quote, a backslash or a
control character, by a letter, or by the code units of its encoding, of which there are two from
`0x10000` on. -/
inductive SpellsChar : Char → List Char → Prop where
  | plain {c : Char} : 0x20 ≤ c.toNat → c ≠ '"' → c ≠ '\\' → SpellsChar c [c]
  | letter {letter c : Char} : escape? letter = some c → SpellsChar c ['\\', letter]
  | code {c : Char} {ds : List Char} : hexCode? ds = some c.toNat →
      SpellsChar c ('\\' :: 'u' :: ds)
  | pair {c : Char} {hs ls : List Char} {high low : Nat} : hexCode? hs = some high →
      hexCode? ls = some low → 0xD800 ≤ high ∧ high < 0xDC00 → 0xDC00 ≤ low ∧ low < 0xE000 →
      c.toNat = pairCode high low →
      SpellsChar c ('\\' :: 'u' :: (hs ++ '\\' :: 'u' :: ls))

inductive SpellsChars : List Char → List Char → Prop where
  | nil : SpellsChars [] []
  | cons {c : Char} {cs front back : List Char} : SpellsChar c front → SpellsChars cs back →
      SpellsChars (c :: cs) (front ++ back)

inductive SpellsString : String → List Char → Prop where
  | quoted {cs body : List Char} : SpellsChars cs body →
      SpellsString (String.ofList cs) ('"' :: (body ++ ['"']))

/-- The documents that are spelled by a word. -/
def words : List (Document × List Char) :=
  [(.null, ['n', 'u', 'l', 'l']), (.bool true, ['t', 'r', 'u', 'e']),
    (.bool false, ['f', 'a', 'l', 's', 'e'])]

/-- Texts in a row, with commas between them and a closing bracket behind the last one. -/
inductive Row {α : Type} (close : Char) (spells : α → List Char → Prop) :
    List α → List Char → Prop where
  | last {x : α} {text after : List Char} : spells x text → Blank after →
      Row close spells [x] (text ++ (after ++ [close]))
  | next {x : α} {xs : List α} {text after before more : List Char} :
      spells x text → Blank after → Blank before → Row close spells xs more →
      Row close spells (x :: xs) (text ++ (after ++ ',' :: (before ++ more)))

/-- Nothing but blanks, or a row of texts, up to a closing bracket. -/
inductive Enclosed {α : Type} (close : Char) (spells : α → List Char → Prop) :
    List α → List Char → Prop where
  | empty {blank : List Char} : Blank blank → Enclosed close spells [] (blank ++ [close])
  | row {xs : List α} {blank text : List Char} : Blank blank → Row close spells xs text →
      Enclosed close spells xs (blank ++ text)

/-- A member of an object is a name and what it stands for, with a colon between them. -/
inductive SpellsMember {α : Type} (spells : α → List Char → Prop) :
    String × α → List Char → Prop where
  | named {name : String} {x : α} {spelled after before text : List Char} :
      SpellsString name spelled → Blank after → Blank before → spells x text →
      SpellsMember spells (name, x) (spelled ++ (after ++ ':' :: (before ++ text)))

inductive Spells : Document → List Char → Prop where
  | word {d : Document} {text : List Char} : (d, text) ∈ words → Spells d text
  | number {lexeme : List Char} : lexeme ∈ numbers → Spells (.number lexeme) lexeme
  | string {s : String} {text : List Char} : SpellsString s text → Spells (.string s) text
  | array {ds : List Document} {text : List Char} : Enclosed ']' Spells ds text →
      Spells (.array ds) ('[' :: text)
  | object {ms : List (String × Document)} {text : List Char} :
      Enclosed '\x7d' (SpellsMember Spells) ms text → Spells (.object ms) ('\x7b' :: text)

/-- A text denotes a document if it spells it between blanks. -/
inductive Denotes : Document → List Char → Prop where
  | mk {d : Document} {before text after : List Char} : Blank before → Spells d text →
      Blank after → Denotes d (before ++ (text ++ after))

def isNumberChar (c : Char) : Bool :=
  c.isDigit || c == '-' || c == '+' || c == '.' || c == 'e' || c == 'E'

theorem isNumberChar_of_mem_digits {ds : List Char} (h : ds ∈ Leaf.digits) :
    ∀ c ∈ ds, isNumberChar c = true := fun c hc => by
  rw [isNumberChar, h.2 c hc]
  rfl

theorem isNumberChar_of_mem_numbers {w : List Char} (h : w ∈ numbers) :
    ∀ c ∈ w, isNumberChar c = true := by
  obtain ⟨sign, hsign, p, hp, hwhole, rfl⟩ := mem_numbers.1 h
  have hsigns : ∀ c ∈ sign, isNumberChar c = true := by
    obtain rfl | rfl := hsign <;> simp [isNumberChar]
  have hfraction : ∀ c ∈ p.fraction, isNumberChar c = true := by
    obtain hnil | hmem := hp.fraction
    · simp [hnil]
    · obtain ⟨ds, hds, heq⟩ := Leaf.mem_fractions.1 hmem
      rw [heq]
      exact List.forall_mem_cons.2 ⟨rfl, isNumberChar_of_mem_digits hds⟩
  have hexponent : ∀ c ∈ p.exponent, isNumberChar c = true := by
    obtain hnil | hmem := hp.exponent
    · simp [hnil]
    · obtain ⟨mark, sign, ds, hmark, hsign, hds, heq⟩ := Leaf.mem_exponents.1 hmem
      rw [heq]
      refine List.forall_mem_cons.2 ⟨by obtain rfl | rfl := hmark <;> rfl,
        List.forall_mem_append.2 ⟨?_, isNumberChar_of_mem_digits hds⟩⟩
      obtain rfl | rfl | rfl := Leaf.mem_signs.1 hsign <;> simp [isNumberChar]
  exact List.forall_mem_append.2 ⟨hsigns, List.forall_mem_append.2
    ⟨isNumberChar_of_mem_digits hwhole.1, List.forall_mem_append.2 ⟨hfraction, hexponent⟩⟩⟩

/-- A number starts with a minus or a digit. -/
theorem exists_cons_of_mem_numbers {w : List Char} (h : w ∈ numbers) :
    ∃ c more, w = c :: more ∧ isNumberChar c = true := by
  have hchars := isNumberChar_of_mem_numbers h
  cases w with
  | nil =>
    obtain ⟨sign, -, p, -, hwhole, heq⟩ := mem_numbers.1 h
    have hnil : p.whole = [] := by simp_all [Leaf.FloatParts.text]
    exact absurd hnil hwhole.1.1
  | cons c more => exact ⟨c, more, rfl, hchars c List.mem_cons_self⟩

/-- No part of a text starts with a blank or a closing bracket. -/
def Opens (text : List Char) : Prop :=
  ∃ c more, text = c :: more ∧ isBlank c = false ∧ c ≠ ']' ∧ c ≠ '\x7d'

theorem SpellsString.opens {s : String} {text : List Char} (h : SpellsString s text) :
    Opens text := by
  obtain ⟨hbody⟩ := h
  exact ⟨_, _, rfl, by decide, by decide, by decide⟩

theorem opens_of_mem_numbers {w : List Char} (h : w ∈ numbers) : Opens w := by
  obtain ⟨c, more, rfl, hc⟩ := exists_cons_of_mem_numbers h
  simp only [isNumberChar, Bool.or_eq_true, beq_iff_eq] at hc
  refine ⟨c, more, rfl, ?_, ?_, ?_⟩
  · simp only [isBlank, Bool.or_eq_false_iff, beq_eq_false_iff_ne]
    refine ⟨⟨⟨?_, ?_⟩, ?_⟩, ?_⟩ <;> (rintro rfl; revert hc; decide)
  · rintro rfl; revert hc; decide
  · rintro rfl; revert hc; decide

theorem Spells.opens {d : Document} {text : List Char} (h : Spells d text) : Opens text := by
  cases h with
  | word hmem =>
    simp only [words, List.mem_cons, Prod.mk.injEq, List.not_mem_nil, or_false] at hmem
    obtain ⟨-, rfl⟩ | ⟨-, rfl⟩ | ⟨-, rfl⟩ := hmem <;>
      exact ⟨_, _, rfl, by decide, by decide, by decide⟩
  | number hmem => exact opens_of_mem_numbers hmem
  | string hs => exact hs.opens
  | array | object =>
    exact ⟨_, _, rfl, by decide, by decide, by decide⟩

theorem SpellsMember.opens {α : Type} {spells : α → List Char → Prop} {m : String × α}
    {text : List Char} (h : SpellsMember spells m text) : Opens text := by
  obtain ⟨hname, -, -, -⟩ := h
  obtain ⟨c, more, rfl, hc⟩ := hname.opens
  exact ⟨c, _, rfl, hc⟩

theorem Row.opens {α : Type} {close : Char} {spells : α → List Char → Prop} {xs : List α}
    {text : List Char} (h : Row close spells xs text)
    (hopens : ∀ {x text}, spells x text → Opens text) : Opens text := by
  cases h with
  | last hx | next hx =>
    obtain ⟨c, more, rfl, hc⟩ := hopens hx
    exact ⟨c, _, rfl, hc⟩

end TextGrammar.Json
