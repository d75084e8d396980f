import TextGrammar.Proofs.NumberReading
import TextGrammar.Proofs.Syntax.AcceptingStatements
import TextGrammar.Proofs.Token.Tokenization

/-! # Integer literals

A number without a point is an integer literal. It is refused if the integer that it writes, with
the sign in front of it, is out of range, and only then. -/

namespace TextGrammar

namespace Number

/-- The integer that digits and the sign in front of them write. -/
def signedValue (negative : Bool) (ds : List Char) : Int :=
  if negative then -(decimalValue ds : Int) else decimalValue ds

theorem readInteger?_signed {ds : List Char} (hds : ds ∈ Leaf.digits) (negative : Bool) :
    readInteger? (if negative then '-' :: ds else ds) = integer? (signedValue negative ds) := by
  cases negative with
  | false => exact readInteger?_of_spells (.unsigned hds)
  | true => exact readInteger?_of_spells (.minus hds)

end Number

namespace Token

/-- A number starts with a digit. -/
theorem digit_of_lexeme {c : Char} {cs : List Char} {n : Nat}
    (h : lexeme c cs = (some .number, n)) : c.isDigit = true ∧ numberRest cs = n := by
  unfold lexeme at h
  split at h
  · cases h
  split at h
  · cases h
  split at h
  · dsimp only at h
    split at h <;> cases h
  split at h
  · rename_i hdigit
    cases h
    exact ⟨hdigit, rfl⟩
  split at h
  · dsimp only at h
    split at h <;> cases h
  split at h
  · cases h
  · split at h <;> cases h

/-- A number without a point is digits. -/
theorem Tokenized.mem_digits {start : Nat} {cs : List Char} {ts : List Token}
    (h : Tokenized start cs ts) :
    ∀ t ∈ ts, t.kind = .number → '.' ∉ t.text → t.text ∈ Leaf.digits := by
  induction h with
  | done => nofun
  | token hgap hlexeme hrest ih =>
    refine List.forall_mem_cons.2 ⟨?_, ih⟩
    rintro rfl hpoint
    obtain ⟨hdigit, hlength⟩ := digit_of_lexeme hlexeme
    obtain ⟨ds, back, hsplit, hds, hn⟩ | ⟨ds, d, fraction, back, hsplit, -, -, -, hn⟩ :=
      numberRest_cases _
    · obtain ⟨rfl, -⟩ := List.append_inj hsplit (hlength.symm.trans hn)
      exact ⟨nofun, List.forall_mem_cons.2 ⟨hdigit, List.all_eq_true.1 hds⟩⟩
    · rw [← List.cons_append, ← List.cons_append, ← List.append_assoc] at hsplit
      obtain ⟨rfl, -⟩ := List.append_inj hsplit
        (hlength.symm.trans (hn.trans (by simp; omega)))
      exact absurd (by simp) hpoint

end Token

namespace Source
open Number (signedValue integer? InRange)
open Token (Kind)

inductive SignTokens : (negative : Bool) → List Token → Prop
  | none : SignTokens false []
  | minus {m : Token} (hm : m.kind = .symbol .minus) : SignTokens true [m]

/-- The marks of a number and its sign. -/
theorem SignTokens.marks {negative : Bool} {sign : List Token} {t : Token}
    (hsign : SignTokens negative sign) (ht : t.kind = .number) :
    (sign ++ [t]).map Token.mark =
      (if negative then [.symbol .minus] else []) ++ [.number t.text] := by
  have hmark : t.mark = .number t.text := by simp only [Token.mark, ht]
  cases hsign with
  | none => exact congrArg (fun m => [m]) hmark
  | @minus m hm =>
    have hminus : m.mark = .symbol .minus := by simp only [Token.mark, hm]
    exact congrArg₂ (fun m n => [m, n]) hminus hmark

/-- Some tokens are an integer literal of a source: a number without a point, behind its sign. -/
structure IntegerTokens (source : List Char) (negative : Bool) (sign : List Token) (t : Token) :
    Prop where
  sign : SignTokens negative sign
  mem : t ∈ Token.lex source
  kind : t.kind = .number
  point : '.' ∉ t.text

namespace Parser
variable {α : Type} {c : Cursor} {fault : Fault}

section
variable {source : List Char} {negative : Bool} {sign rest : List Token} {t : Token}
  {expr : Parser Expr} {block : Parser Block}

theorem number_eq (h : t.text ∈ Leaf.digits) (span : Span) :
    number t negative span =
      match integer? (signedValue negative t.text) with
      | some n => return .int span n
      | none => throw ⟨t.span, .integerOutOfRange⟩ := by
  have hpoint : t.text.contains '.' = false := by
    rw [Bool.eq_false_iff, ne_eq, List.contains_iff_mem]
    exact fun hmem => absurd (h.2 '.' hmem) (by decide)
  dsimp only [number]
  rw [hpoint, if_neg Bool.false_ne_true]
  cases hvalue : integer? (signedValue negative t.text) <;>
    simp only [Number.readInteger?_signed h, hvalue]

/-- A number and the sign in front of it are read together. -/
theorem atom_number (hsign : SignTokens negative sign) (ht : t.kind = .number)
    (hc : c.rest = sign ++ t :: rest) : (atom expr block).run c =
      (number t negative (c.here.join t.span)).run { c with rest, last := t.span } := by
  obtain ⟨ts, last, stop, depth⟩ := c
  obtain ⟨kind, span, text⟩ := t
  subst hc ht
  cases hsign with
  | none => rfl
  | @minus m hm =>
    obtain ⟨kind, span, text⟩ := m
    subst hm
    rfl

/-- An integer literal is read if it is in range. -/
theorem atom_integer (h : IntegerTokens source negative sign t) (hc : c.rest = sign ++ t :: rest)
    (hrange : InRange (signedValue negative t.text)) :
    Yields (atom expr block) c
      (.int (c.here.join t.span) (Int64.ofInt (signedValue negative t.text)))
      { c with rest, last := t.span } := by
  have hdigits := (Token.lex_tokenized source).mem_digits t h.mem h.kind h.point
  rw [Yields, atom_number h.sign h.kind hc, number_eq hdigits, integer?, if_pos hrange]
  rfl

/-- An integer literal is refused if it is out of range. -/
theorem atom_outOfRange (h : IntegerTokens source negative sign t)
    (hc : c.rest = sign ++ t :: rest) (hrange : ¬InRange (signedValue negative t.text)) :
    Faults (atom expr block) c ⟨t.span, .integerOutOfRange⟩ := by
  have hdigits := (Token.lex_tokenized source).mem_digits t h.mem h.kind h.point
  rw [Faults, atom_number h.sign h.kind hc, number_eq hdigits, integer?, if_neg hrange]
  rfl

theorem expr_outOfRange (h : IntegerTokens source negative sign t)
    (hc : c.rest = sign ++ t :: rest) (hrange : ¬InRange (signedValue negative t.text))
    (hdepth : c.depth < nestingLimit) (levels : Nat) :
    Faults (Parser.expr (levels + 1)) c ⟨t.span, .integerOutOfRange⟩ :=
  comparison_faults (nested_faults hdepth (atom_outOfRange h hc hrange))

/-- An integer literal that nothing follows is an expression. -/
theorem expr_integer (h : IntegerTokens source negative sign t) (hc : c.rest = sign ++ [t])
    (hrange : InRange (signedValue negative t.text)) (hdepth : c.depth < nestingLimit)
    (hlevels : nestingLimit ≤ levels + c.depth) :
    ∃ span d, Yields (Parser.expr levels) c
      (.int span (Int64.ofInt (signedValue negative t.text))) d ∧ d.rest = [] := by
  have hdigits := (Token.lex_tokenized source).mem_digits t h.mem h.kind h.point
  have hread : Number.readInteger? (if negative then '-' :: t.text else t.text) =
      some (Int64.ofInt (signedValue negative t.text)) := by
    rw [Number.readInteger?_signed hdigits, integer?, if_pos hrange]
  have hnumeral : Numeral negative t.text
      (.int noSpan (Int64.ofInt (signedValue negative t.text))) :=
    .int (by simpa using h.point) hread
  have haccepts : AcceptsExpr nestingLimit 1
      (.int noSpan (Int64.ofInt (signedValue negative t.text))) _ :=
    spells_accepted (.sumAlone (.productAlone (.operandAlone (.atomAlone (.number hnumeral)))))
  have hview : c.view = ⟨c.depth,
      ((if negative then [.symbol .minus] else []) ++ [.number t.text]) ++ []⟩ := by
    rw [Cursor.view, Cursor.marks, hc, h.sign.marks h.kind, List.append_nil]
  have hends : EndsExpr [] := endsExpr_of_front fun _ _ => (Option.some_ne_none _).symm
  obtain ⟨hlt, -⟩ | ⟨x, d, hx, hd, hbare⟩ :=
    haccepts levels c.depth [] hlevels hdepth hends c hview
  · exact absurd hlt (lt_irrefl _)
  · have hnone : d.rest = [] := List.map_eq_nil_iff.1 (congrArg View.marks hd)
    cases x with
    | int span n =>
      rw [Expr.bare, Expr.bare, Expr.int.injEq] at hbare
      exact ⟨span, d, hbare.2 ▸ hx, hnone⟩
    | _ => simp [Expr.bare] at hbare

end

end Parser

end Source

end TextGrammar
