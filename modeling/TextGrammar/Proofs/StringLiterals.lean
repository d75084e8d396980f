import Mathlib.Algebra.Group.Nat.Even
import Mathlib.Data.List.DropRight
import TextGrammar.Proofs.Computation
import TextGrammar.Proofs.Token.Tokenization

/-! # String literals of a source

The lexer and the decoder agree on where a string ends. What is left to go wrong is an escape that
there is not, and the first one is reported. -/

namespace TextGrammar

namespace Token

/-- The text of a string token is enclosed in quotes. -/
theorem Tokenized.enclosed {start : Nat} {cs : List Char} {ts : List Token}
    (h : Tokenized start cs ts) :
    ∀ t ∈ ts, t.kind = .string → ∃ body, t.text = '"' :: (body ++ ['"']) ∧ Enclosed body := by
  induction h with
  | done => nofun
  | @token start gap c body rest kind ts hgap hlexeme hrest ih =>
    refine List.forall_mem_cons.2 ⟨?_, ih⟩
    rintro rfl
    obtain ⟨inner, back, rfl, hsplit, hlength, hinner⟩ := enclosed_of_lexeme hlexeme
    have hsplit' : body ++ rest = (inner ++ ['"']) ++ back := by simpa using hsplit
    obtain ⟨rfl, -⟩ := List.append_inj hsplit' (by simpa using hlength)
    exact ⟨inner, rfl, hinner⟩

end Token

namespace Literal

def escapes : List Char := ['\\', '"', 'n', 't', 'r', '0']

theorem mem_escapes {e : Char} : e ∈ escapes ↔ ∃ c, escaped? e = some c := by
  unfold escaped?
  split <;> simp_all [escapes]

/-- A backslash behind a text starts an escape if the backslashes right in front of it, each of
which is an escape or is taken along by one, are even in number. -/
def StartsEscape (front : List Char) : Prop := Even (front.rtakeWhile (· == '\\')).length

/-- Behind a front of a text there is a backslash that starts an escape, with a character that may
not follow it. -/
structure Offends (text front : List Char) (c : Char) : Prop where
  text_eq : ∃ back, text = front ++ '\\' :: c :: back
  starts : StartsEscape front
  unknown : c ∉ escapes

/-- No other offence is in front of this one. -/
structure OffendsFirst (text front : List Char) (c : Char) : Prop extends Offends text front c where
  first : ∀ other d, Offends text other d → front.length ≤ other.length

theorem length_rtakeWhile_cons (p : Char → Bool) (d : Char) (front : List Char) :
    ((d :: front).rtakeWhile p).length =
      (front.rtakeWhile p).length + if front.all p && p d then 1 else 0 := by
  induction front using List.reverseRecOn with
  | nil =>
    change (([] ++ [d]).rtakeWhile p).length = _
    rw [List.rtakeWhile_concat]
    split <;> simp_all
  | append_singleton front x ih =>
    rw [← List.cons_append, List.rtakeWhile_concat, List.rtakeWhile_concat]
    split
    · simp_all
      omega
    · simp_all

theorem startsEscape_nil : StartsEscape [] := ⟨0, rfl⟩

theorem not_startsEscape_slash : ¬StartsEscape ['\\'] := Nat.not_even_one

namespace Spells
variable {piece cs front : List Char} {c d : Char}

/-- What stands for a character leaves no backslash open. -/
theorem startsEscape_append (h : Spells piece d) :
    StartsEscape (piece ++ front) ↔ StartsEscape front := by
  cases h with
  | plain hd =>
    have hplain : (d == '\\') = false := beq_eq_false_iff_ne.2 hd
    simp only [StartsEscape, List.cons_append, List.nil_append, length_rtakeWhile_cons, hplain,
      Bool.and_false, Bool.false_eq_true, if_false, Nat.add_zero]
  | @escape e _ he =>
    simp only [StartsEscape, List.cons_append, List.nil_append, length_rtakeWhile_cons,
      List.all_cons, beq_self_eq_true, Bool.and_true]
    -- The backslash and what it takes along go into the run together, or neither of them does.
    rw [Bool.and_comm (e == '\\')]
    split <;> simp [Nat.even_add_one]

/-- An offence stands behind what is spelled in front of it. -/
theorem append_front (h : Spells piece d) (hoffends : Offends (piece ++ cs) front c) :
    ∃ rest, front = piece ++ rest := by
  obtain ⟨⟨back, htext⟩, hstarts, hunknown⟩ := hoffends
  cases h with
  | plain hd =>
    cases front with
    | nil => exact absurd (List.cons.inj htext).1 hd
    | cons x rest => exact ⟨rest, congrArg (· :: rest) (List.cons.inj htext).1.symm⟩
  | @escape e _ he =>
    simp only [List.cons_append, List.nil_append] at htext
    match front with
    | [] =>
      obtain rfl : e = c := (List.cons.inj (List.cons.inj htext).2).1
      exact absurd (mem_escapes.2 ⟨d, he⟩) hunknown
    | [x] =>
      obtain rfl : '\\' = x := (List.cons.inj htext).1
      exact absurd hstarts not_startsEscape_slash
    | x :: y :: rest =>
      obtain rfl : '\\' = x := (List.cons.inj htext).1
      obtain rfl : e = y := (List.cons.inj (List.cons.inj htext).2).1
      exact ⟨rest, rfl⟩

theorem offends_append (h : Spells piece d) :
    Offends (piece ++ cs) (piece ++ front) c ↔ Offends cs front c := by
  have htext : (∃ back, piece ++ cs = piece ++ front ++ '\\' :: c :: back) ↔
      ∃ back, cs = front ++ '\\' :: c :: back := by
    simp only [List.append_assoc, List.append_cancel_left_eq]
  constructor
  · rintro ⟨hfound, hstarts, hunknown⟩
    exact ⟨htext.1 hfound, h.startsEscape_append.1 hstarts, hunknown⟩
  · rintro ⟨hfound, hstarts, hunknown⟩
    exact ⟨htext.2 hfound, h.startsEscape_append.2 hstarts, hunknown⟩

theorem offendsFirst_append (h : Spells piece d) (hfirst : OffendsFirst cs front c) :
    OffendsFirst (piece ++ cs) (piece ++ front) c := by
  refine ⟨h.offends_append.2 hfirst.toOffends, ?_⟩
  intro other e hother
  obtain ⟨rest, rfl⟩ := h.append_front hother
  have hle := hfirst.first rest e (h.offends_append.1 hother)
  simpa using hle

end Spells

/-- The result of reading a text from an offset on: if nothing offends, it is read, and otherwise
the character behind the backslash of the first offence is reported, with its offset. -/
inductive Judged (text : List Char) (start : Nat) :
    Except (Nat × Fault) (List Char) → Prop
  | ok (decoded : List Char) (h : ∀ front c, ¬Offends text front c) :
    Judged text start (.ok decoded)
  | error {front : List Char} {c : Char} (h : OffendsFirst text front c) :
    Judged text start (.error (start + Text.byteLength (front ++ ['\\']), .unknownEscape c))

namespace Judged
variable {piece cs : List Char} {d : Char} {start : Nat} {result : Except (Nat × Fault) (List Char)}

theorem append (hpiece : Spells piece d)
    (h : Judged cs (start + Text.byteLength piece) result) (f : List Char → List Char) :
    Judged (piece ++ cs) start (result.map f) := by
  cases h with
  | ok decoded h =>
    refine .ok (f decoded) ?_
    intro front c hoffends
    obtain ⟨rest, rfl⟩ := hpiece.append_front hoffends
    exact h rest c (hpiece.offends_append.1 hoffends)
  | @error front c h =>
    have hoffset : start + Text.byteLength piece + Text.byteLength (front ++ ['\\']) =
        start + Text.byteLength (piece ++ front ++ ['\\']) := by
      rw [Nat.add_assoc, ← Text.byteLength_append, List.append_assoc]
    rw [hoffset]
    exact .error (hpiece.offendsFirst_append h)

theorem shift (h : Judged cs 0 result) (start : Nat) :
    Judged cs start (result.mapError fun (offset, fault) => (start + offset, fault)) := by
  cases h with
  | ok decoded h => exact .ok decoded h
  | error h =>
    rw [Nat.zero_add]
    exact .error h

end Judged

/-- What stands between quotes is spelled piece by piece, up to an escape that there is not. -/
theorem enclosed_induction {P : List Char → Prop} {body : List Char} (h : Token.Enclosed body)
    (hnil : P []) (hpiece : ∀ piece c rest, Spells piece c → P rest → P (piece ++ rest))
    (hunknown : ∀ e rest, e ∉ escapes → P ('\\' :: e :: rest)) : P body := by
  induction h with
  | nil => exact hnil
  | @plain c cs hc h ih => exact hpiece [c] c cs (.plain fun heq => hc (by simp [heq])) ih
  | @escape e cs h ih =>
    by_cases he : e ∈ escapes
    · obtain ⟨c, hc⟩ := mem_escapes.1 he
      exact hpiece ['\\', e] c cs (.escape hc) ih
    · exact hunknown e cs he

theorem decodeBody_unknown {e : Char} (he : e ∉ escapes) (start : Nat) (cs : List Char) :
    decodeBody start ('\\' :: e :: cs) = .error (start + 1, .unknownEscape e) := by
  have hnone : escaped? e = none := by
    cases hescaped : escaped? e with
    | none => rfl
    | some c => exact absurd (mem_escapes.2 ⟨c, hescaped⟩) he
  simp only [decodeBody, hnone]

theorem judged_decodeBody {body : List Char} (h : Token.Enclosed body) :
    ∀ start, Judged (body ++ ['"']) start (decodeBody start body) := by
  apply enclosed_induction h
  · refine fun start => .ok [] ?_
    rintro front c ⟨⟨back, htext⟩, -⟩
    have hlength := congrArg List.length htext
    simp only [List.nil_append, List.length_append, List.length_cons, List.length_nil] at hlength
    omega
  · intro piece c rest hspells ih start
    rw [hspells.decodeBody_append, List.append_assoc]
    exact .append hspells (ih _) _
  · intro e rest he start
    have hfirst : OffendsFirst ('\\' :: e :: rest ++ ['"']) [] e :=
      ⟨⟨⟨rest ++ ['"'], rfl⟩, startsEscape_nil, he⟩, fun _ _ _ => Nat.zero_le _⟩
    rw [decodeBody_unknown he]
    exact .error hfirst

/-- What stands between two quotes is read up to the first offence. -/
theorem judged_enclosed {body : List Char} (h : Token.Enclosed body) :
    Judged ('"' :: (body ++ ['"'])) 0 (decodeBody 1 body) := by
  have hquote : Spells ['"'] '"' := .plain (by decide)
  have hread : Judged ('"' :: (body ++ ['"'])) 0 ((decodeBody 1 body).map id) :=
    .append hquote (judged_decodeBody h 1) id
  cases hbody : decodeBody 1 body <;> simpa [hbody] using hread

theorem Judged.isOk_iff {text : List Char} {start : Nat}
    {result : Except (Nat × Fault) (List Char)} (h : Judged text start result) :
    (∃ decoded, result = .ok decoded) ↔ ∀ front c, ¬Offends text front c := by
  cases h with
  | ok decoded h => exact ⟨fun _ => h, fun _ => ⟨decoded, rfl⟩⟩
  | @error front c h => exact ⟨nofun, fun hnone => absurd h.toOffends (hnone front c)⟩

/-- Between quotes a backslash has a character behind it, the closing quote if nothing else. -/
theorem no_offence_iff {body : List Char} :
    (∀ front c, ¬Offends ('"' :: (body ++ ['"'])) front c) ↔
      ∀ front back, '"' :: (body ++ ['"']) = front ++ '\\' :: back → StartsEscape front →
        ∃ c ∈ escapes, back.head? = some c := by
  constructor
  · intro hnone front back htext hstarts
    cases back with
    | nil =>
      have hlast := congrArg List.getLast? htext
      rw [← List.cons_append, List.getLast?_concat, List.getLast?_concat] at hlast
      cases hlast
    | cons c back =>
      refine ⟨c, ?_, rfl⟩
      by_cases hc : c ∈ escapes
      · exact hc
      · exact absurd ⟨⟨back, htext⟩, hstarts, hc⟩ (hnone front c)
  · rintro hall front c ⟨⟨back, htext⟩, hstarts, hunknown⟩
    obtain ⟨d, hd, hhead⟩ := hall front (c :: back) htext hstarts
    obtain rfl : c = d := Option.some.inj hhead
    exact hunknown hd

/-- What is read of a text is spelled by it, character by character. -/
theorem spells_of_decodeBody {body : List Char} (h : Token.Enclosed body) :
    ∀ start text, decodeBody start body = .ok text →
      ∃ pieces : List (List Char), body = pieces.flatten ∧ List.Forall₂ Spells pieces text := by
  apply enclosed_induction h
  · rintro start _ ⟨⟩
    exact ⟨[], rfl, .nil⟩
  · intro piece c rest hspells ih start text hread
    rw [hspells.decodeBody_append] at hread
    obtain ⟨more, hmore, rfl⟩ := map_eq_ok.1 hread
    obtain ⟨pieces, rfl, hpieces⟩ := ih _ _ hmore
    exact ⟨piece :: pieces, rfl, .cons hspells hpieces⟩
  · intro e rest he start text hread
    rw [decodeBody_unknown he] at hread
    cases hread

def escapeFor? (c : Char) : Option Char := escapes.find? fun e => escaped? e = some c

def spell (c : Char) : List Char :=
  match escapeFor? c with
  | some e => ['\\', e]
  | none => [c]

/-- A text as a literal, with escapes wherever there are any. -/
def spelled (text : List Char) : List Char := '"' :: (text.flatMap spell ++ ['"'])

/-- A character without an escape is no quote, backslash or line feed. -/
theorem plain_of_escapeFor? {c : Char} (h : escapeFor? c = none) : c ∉ ['"', '\\', '\n'] := by
  have hnone := List.find?_eq_none.1 h
  intro hc
  simp only [List.mem_cons, List.not_mem_nil, or_false] at hc
  obtain rfl | rfl | rfl := hc
  · exact hnone '"' (by decide) rfl
  · exact hnone '\\' (by decide) rfl
  · exact hnone 'n' (by decide) rfl

theorem escaped?_of_escapeFor? {c e : Char} (h : escapeFor? c = some e) : escaped? e = some c := by
  simpa using List.find?_some h

theorem spells_spell (c : Char) : Spells (spell c) c := by
  unfold spell
  cases hescape : escapeFor? c with
  | some e => exact .escape (escaped?_of_escapeFor? hescape)
  | none => exact .plain fun heq => plain_of_escapeFor? hescape (by simp [heq])

theorem enclosed_spell (c : Char) : Token.Enclosed (spell c) := by
  unfold spell
  cases hescape : escapeFor? c with
  | some e => exact .escape .nil
  | none => exact .plain (plain_of_escapeFor? hescape) .nil

end Literal

open Literal (extract StartsEscape OffendsFirst Spells escapes spelled)
open Text (byteLength)

/-- How the text of a string token of a source is read. It is never found to lack its closing
quote. It is read if every backslash that starts an escape has a known escape behind it, and
otherwise the character behind the first backslash that does not is reported at its offset, which
is within the token. The text that is read is spelled by the token character by character, and can
be spelled as a literal again. -/
theorem string_token_reading (source : List Char) (t : Token) (ht : t ∈ Token.lex source)
    (hkind : t.kind = .string) :
    Text.slice? t.span.start t.span.stop source = some t.text ∧
    (∀ offset, extract source t.span ≠ .error (offset, .unclosed)) ∧
    ((∃ text, extract source t.span = .ok text) ↔
      ∀ front back, t.text = front ++ '\\' :: back → StartsEscape front →
        ∃ c ∈ escapes, back.head? = some c) ∧
    (∀ offset fault, extract source t.span = .error (offset, fault) →
      ∃ front c, OffendsFirst t.text front c ∧ fault = .unknownEscape c ∧
        offset = t.span.start + byteLength (front ++ ['\\']) ∧
        t.span.start < offset ∧ offset < t.span.stop ∧
        ∃ ahead behind, Text.cut? offset source = some (ahead ++ ['\\'], c :: behind)) ∧
    ∀ text, extract source t.span = .ok text →
      (∃ pieces : List (List Char), t.text = '"' :: (pieces.flatten ++ ['"']) ∧
        List.Forall₂ Spells pieces text) ∧
      Token.lex (spelled text) =
        [⟨.string, ⟨0, byteLength (spelled text)⟩, spelled text⟩] ∧
      extract (spelled text) ⟨0, byteLength (spelled text)⟩ = .ok text := by
  obtain ⟨ahead, behind, hstands⟩ := Token.exists_standsBehind_of_mem_lex ht
  obtain ⟨body, htext, hbody⟩ := (Token.lex_tokenized source).enclosed t ht hkind
  have hextract : extract source t.span =
      (Literal.decodeBody 1 body).mapError fun (offset, fault) => (t.span.start + offset, fault) := by
    rw [extract, hstands.slice, Option.getD_some, htext, Literal.decode_enclosed]
  have hjudged : Literal.Judged t.text t.span.start (extract source t.span) := by
    rw [hextract, htext]
    exact (Literal.judged_enclosed hbody).shift t.span.start
  refine ⟨hstands.slice, ?_, ?_, ?_, ?_⟩
  · intro offset heq
    rw [heq] at hjudged
    cases hjudged
  · rw [hjudged.isOk_iff, htext]
    exact Literal.no_offence_iff
  · intro offset fault heq
    rw [heq] at hjudged
    cases hjudged with
    | @error front c hfirst =>
      obtain ⟨back, hsplit⟩ := hfirst.text_eq
      have hsplit' : t.text = (front ++ ['\\']) ++ c :: back := by simpa using hsplit
      obtain ⟨hstart, hstop, hcut⟩ := hstands.cut_within hsplit' (by simp)
      rw [← List.append_assoc] at hcut
      exact ⟨front, c, hfirst, rfl, rfl, hstart, hstop, ahead ++ front, _, hcut⟩
  · intro text hread
    refine ⟨?_, Token.lex_enclosed (.flatMap fun c _ => Literal.enclosed_spell c), ?_⟩
    · rw [hextract] at hread
      cases hbodyRead : Literal.decodeBody 1 body with
      | error fault =>
        rw [hbodyRead] at hread
        cases hread
      | ok inner =>
        rw [hbodyRead] at hread
        cases hread
        obtain ⟨pieces, rfl, hpieces⟩ := Literal.spells_of_decodeBody hbody _ _ hbodyRead
        exact ⟨pieces, htext, hpieces⟩
    · rw [Literal.extract_all]
      exact Literal.decode_spelled fun c _ => Literal.spells_spell c

/-- Behind an escaped backslash there are two unknown escapes, of which the first is reported. -/
theorem string_token_reading_accent :
    ∃ front c, OffendsFirst "\"\\\\\\é\\z\"".toList front c ∧
      Literal.Fault.unknownEscape 'é' = .unknownEscape c ∧
      6 = 2 + byteLength (front ++ ['\\']) ∧ 2 < 6 ∧ 6 < 11 ∧
      ∃ ahead behind, Text.cut? 6 "x \"\\\\\\é\\z\"".toList = some (ahead ++ ['\\'], c :: behind) :=
  (string_token_reading "x \"\\\\\\é\\z\"".toList ⟨.string, ⟨2, 11⟩, "\"\\\\\\é\\z\"".toList⟩
    (by decide +kernel) rfl).2.2.2.1 6 (.unknownEscape 'é') (by rfl)

end TextGrammar
