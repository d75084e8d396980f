import TextGrammar.Proofs.Display.Blocks

/-! # Patterns read back

The text of a legible pattern is read as a source pattern that writes it: a field has the name it
is bound to as its label, and a rule reference keeps its new name. A pattern ends in front of a
comma, a semicolon, a bar or a closing bracket. -/

namespace TextGrammar

namespace Source

section
variable (nameOf : Nat → String)

mutual

/-- A source pattern writes a pattern of a compiled grammar whose rules have some names. -/
inductive WritesPattern : Pattern → TextGrammar.Pattern → Prop
  | leaf {span : Span} {l : Leaf} : WritesPattern (.name span l.name) (.leaf l)
  | literal {span : Span} {text : String} : WritesPattern (.literal span text) (.literal text)
  | sequence {span : Span} {slots : Nat} {fs : List (Option Name × Pattern)}
    {gs : List (Option Binding × TextGrammar.Pattern)} (hfields : WritesFields fs gs) :
    WritesPattern (.sequence span fs none) (.sequence slots gs)
  | action {span : Span} {slots locals : Nat} {fs : List (Option Name × Pattern)}
    {gs : List (Option Binding × TextGrammar.Pattern)} {s : Expr} {e : TextGrammar.Expr}
    (hfields : WritesFields fs gs) (hbody : Writes s e) :
    WritesPattern (.sequence span fs (some s)) (.action slots gs locals e)
  | repetition {span : Span} {p : Pattern} {q : TextGrammar.Pattern} (hbody : WritesPattern p q) :
    WritesPattern (.repetition span p) (.repetition q)
  | choice {span : Span} {ps : List Pattern} {qs : List TextGrammar.Pattern}
    (halternatives : WritesPatterns ps qs) : WritesPattern (.choice span ps) (.choice qs)
  | negation {span : Span} {p : Pattern} {q : TextGrammar.Pattern} (hbody : WritesPattern p q) :
    WritesPattern (.negation span p) (.negation q)
  | rule {span : Span} {index : Nat} : WritesPattern (.name span (nameOf index)) (.rule index none)
  | renamed {span inner : Span} {index : Nat} {newName : Name} :
    WritesPattern (.rename span (.name inner (nameOf index)) newName)
      (.rule index (some newName.text))

inductive WritesPatterns : List Pattern → List TextGrammar.Pattern → Prop
  | nil : WritesPatterns [] []
  | cons {p : Pattern} {q : TextGrammar.Pattern} {ps : List Pattern} {qs : List TextGrammar.Pattern}
    (hhead : WritesPattern p q) (htail : WritesPatterns ps qs) : WritesPatterns (p :: ps) (q :: qs)

/-- The fields of a source sequence write those of a sequence: bound fields with their name as
the label. -/
inductive WritesFields : List (Option Name × Pattern) →
    List (Option Binding × TextGrammar.Pattern) → Prop
  | nil : WritesFields [] []
  | free {p : Pattern} {q : TextGrammar.Pattern} {fs : List (Option Name × Pattern)}
    {gs : List (Option Binding × TextGrammar.Pattern)} (hhead : WritesPattern p q)
    (htail : WritesFields fs gs) : WritesFields ((none, p) :: fs) ((none, q) :: gs)
  | bound {label : Name} {slot : Nat} {p : Pattern} {q : TextGrammar.Pattern}
    {fs : List (Option Name × Pattern)} {gs : List (Option Binding × TextGrammar.Pattern)}
    (hhead : WritesPattern p q) (htail : WritesFields fs gs) :
    WritesFields ((some label, p) :: fs) ((some ⟨label.text, slot⟩, q) :: gs)

end

end

variable {nameOf : Nat → String}

theorem WritesPatterns.ne_nil {ps : List Pattern} {qs : List TextGrammar.Pattern}
    (h : WritesPatterns nameOf ps qs) (hqs : qs ≠ []) : ps ≠ [] := by
  rintro rfl
  cases h
  exact hqs rfl

end Source

section
variable (nameOf : Nat → String)

mutual

/-- The text of a pattern reads back. A choice has two alternatives at least. -/
def Pattern.IsLegible : Pattern → Prop
  | .leaf _ => True
  | .literal text => Text.IsLegible text
  | .sequence _ fields => Pattern.FieldsLegible fields
  | .action _ fields _ body => Pattern.FieldsLegible fields ∧ body.IsLegible
  | .repetition p | .negation p => p.IsLegible
  | .choice alternatives => 2 ≤ alternatives.length ∧ Pattern.AreLegible alternatives
  | .rule index newName =>
    Token.isName (nameOf index).toList = true ∧ ∀ text ∈ newName, Text.IsLegible text

def Pattern.AreLegible : List Pattern → Prop
  | [] => True
  | p :: ps => p.IsLegible ∧ Pattern.AreLegible ps

def Pattern.FieldsLegible : List (Option Binding × Pattern) → Prop
  | [] => True
  | (b, p) :: rest =>
    (∀ x ∈ b, Token.isName x.name.toList = true) ∧ p.IsLegible ∧ Pattern.FieldsLegible rest

end

end

namespace Source.Parser
open Token (words Apart Word Kind)
variable {nameOf : Nat → String}

def fieldEnders : List Kind :=
  [.symbol .comma, .symbol .rightBracket, .symbol .rightParen, .symbol .semicolon]

def EndsUnary (ws : List Word) : Prop :=
  ∃ kind ∈ Token.Kind.symbol .pipe :: fieldEnders, headKind ws = some kind

def EndsChoice (ws : List Word) : Prop := ∃ kind ∈ fieldEnders, headKind ws = some kind

theorem EndsChoice.unary {ws : List Word} (h : EndsChoice ws) : EndsUnary ws := by
  obtain ⟨kind, hkind, hws⟩ := h
  exact ⟨kind, List.mem_cons_of_mem _ hkind, hws⟩

theorem EndsChoice.ne_pipe {ws : List Word} (h : EndsChoice ws) :
    headKind ws ≠ some (.symbol .pipe) := by
  obtain ⟨kind, hkind, hws⟩ := h
  rw [hws]
  rintro ⟨⟩
  exact absurd hkind (by decide)

theorem EndsUnary.ends {ws : List Word} (h : EndsUnary ws) : Ends ws := by
  obtain ⟨kind, hkind, hws⟩ := h
  have hall : ∀ k ∈ Token.Kind.symbol .pipe :: fieldEnders, k ∈ enders := by decide
  exact ⟨kind, hall kind hkind, hws⟩

theorem EndsUnary.ne {ws : List Word} {kind : Kind} (h : EndsUnary ws)
    (hkind : kind ∉ Token.Kind.symbol .pipe :: fieldEnders) : headKind ws ≠ some kind := by
  obtain ⟨other, hother, hws⟩ := h
  rw [hws]
  rintro ⟨⟩
  exact hkind hother

section
variable {ws mid rest : List Word} {t₁ t₂ : List Char} {unary : Parser Pattern}
  {expr : Parser Expr} {P : Pattern → Prop}

theorem reads_repetition (h : Reads unary ws rest P) :
    Reads (unaryBody unary expr) ((.keyword .repetition, t₁) :: ws) rest
      fun p => ∃ span body, p = .repetition span body ∧ P body := by
  refine reads_here.bind fun start _ => reads_accept.bind ?_
  rintro _ rfl
  refine h.bind fun body hbody => ?_
  exact (reads_spanFrom start).bind fun span _ => .pure ⟨span, body, rfl, hbody⟩

theorem reads_negation (h : Reads unary ws rest P) :
    Reads (unaryBody unary expr) ((.symbol .bang, t₁) :: ws) rest
      fun p => ∃ span body, p = .negation span body ∧ P body := by
  refine reads_here.bind fun start _ => (reads_accept_other (by simp)).bind ?_
  rintro _ rfl
  refine reads_accept.bind ?_
  rintro _ rfl
  refine h.bind fun body hbody => ?_
  exact (reads_spanFrom start).bind fun span _ => .pure ⟨span, body, rfl, hbody⟩

/-- A primary pattern without a new name. -/
theorem reads_primary (hws : headKind ws ≠ some (.keyword .repetition) ∧
      headKind ws ≠ some (.symbol .bang))
    (h : Reads (primary unary expr) ws rest P) (hrest : headKind rest ≠ some (.symbol .colon)) :
    Reads (unaryBody unary expr) ws rest P := by
  refine reads_here.bind fun start _ => (reads_accept_other hws.1).bind ?_
  rintro _ rfl
  refine (reads_accept_other hws.2).bind ?_
  rintro _ rfl
  refine h.bind fun body hbody => reads_at.bind ?_
  rintro _ rfl
  refine (reads_peekAt 1).bind ?_
  rintro _ rfl
  rw [beq_eq_false_iff_ne.2 hrest]
  exact .pure hbody

theorem reads_ruleName (name : String) :
    Reads (primary unary expr) ((.identifier, name.toList) :: ws) ws
      fun p => ∃ span, p = .name span name := by
  refine reads_here.bind fun start _ => reads_peek.bind ?_
  rintro _ rfl
  refine (reads_name name).bind ?_
  rintro n rfl
  exact (reads_spanFrom start).bind fun span _ => .pure ⟨span, rfl⟩

/-- A rule reference with a new name. -/
theorem reads_rename {name newName : String} (h : Text.IsLegible newName) :
    Reads (unaryBody unary expr)
      ((.identifier, name.toList) :: (.symbol .colon, t₁) ::
        (.string, Text.quoted newName.toList) :: ws) ws
      fun p => ∃ span inner n, p = .rename span (.name inner name) n ∧ n.text = newName := by
  refine reads_here.bind fun start _ => (reads_accept_other (by simp)).bind ?_
  rintro _ rfl
  refine (reads_accept_other (by simp)).bind ?_
  rintro _ rfl
  refine (reads_ruleName name).bind ?_
  rintro _ ⟨inner, rfl⟩
  refine reads_at.bind ?_
  rintro _ rfl
  refine (reads_peekAt 1).bind ?_
  rintro _ rfl
  refine reads_advance.bind fun _ _ => (reads_string h).bind fun n hn => ?_
  exact (reads_spanFrom start).bind fun span _ => .pure ⟨span, inner, n, rfl, hn⟩

theorem reads_literal {text : String} (h : Text.IsLegible text) :
    Reads (primary unary expr) ((.string, Text.quoted text.toList) :: ws) ws
      fun p => ∃ span, p = .literal span text := by
  refine reads_here.bind fun start _ => reads_peek.bind ?_
  rintro _ rfl
  refine (reads_string h).bind ?_
  rintro s rfl
  exact (reads_spanFrom start).bind fun span _ => .pure ⟨span, rfl⟩

theorem reads_group (h : Reads (choice unary) ws ((.symbol .rightParen, t₁) :: rest) P) :
    Reads (primary unary expr) ((.symbol .leftParen, t₂) :: ws) rest
      fun p => ∃ span inner, p = inner.withSpan span ∧ P inner := by
  refine reads_here.bind fun start _ => reads_peek.bind ?_
  rintro _ rfl
  refine reads_advance.bind fun _ _ => h.bind fun inner hinner => reads_expect.bind fun _ _ => ?_
  exact (reads_spanFrom start).bind fun span _ => .pure ⟨span, inner, rfl, hinner⟩

theorem reads_sequence {F : List Field → Prop}
    (h : Reads (listUntil (.symbol .rightBracket) (field unary)) ws rest F)
    (hrest : headKind rest ≠ some (.symbol .fatArrow)) :
    Reads (primary unary expr) ((.symbol .leftBracket, t₁) :: ws) rest
      fun p => ∃ span fields, p = .sequence span fields none ∧ F fields := by
  refine reads_here.bind fun start _ => reads_peek.bind ?_
  rintro _ rfl
  refine reads_advance.bind fun _ _ => h.bind fun fields hfields => ?_
  refine (reads_accept_other hrest).bind ?_
  rintro _ rfl
  exact .pure_bind ((reads_spanFrom start).bind fun span _ => .pure ⟨span, fields, rfl, hfields⟩)

theorem reads_action {F : List Field → Prop} {Q : Expr → Prop}
    (h : Reads (listUntil (.symbol .rightBracket) (field unary)) ws
      ((.symbol .fatArrow, t₁) :: mid) F) (hbody : Reads expr mid rest Q) :
    Reads (primary unary expr) ((.symbol .leftBracket, t₂) :: ws) rest
      fun p => ∃ span fields body, p = .sequence span fields (some body) ∧ F fields ∧ Q body := by
  refine reads_here.bind fun start _ => reads_peek.bind ?_
  rintro _ rfl
  refine reads_advance.bind fun _ _ => h.bind fun fields hfields => reads_accept.bind ?_
  rintro _ rfl
  refine (hbody.map (R := fun a => ∃ body, a = some body ∧ Q body)
    fun body hQ => ⟨body, rfl, hQ⟩).bind ?_
  rintro _ ⟨body, rfl, hQ⟩
  exact (reads_spanFrom start).bind fun span _ => .pure ⟨span, fields, body, rfl, hfields, hQ⟩

theorem repeats_noAlternative {Q : List Pattern → Prop} (h : headKind ws ≠ some (.symbol .pipe))
    (hQ : Q []) : Repeats (alternative? unary) ws ws Q := by
  refine .stop ((reads_accept_other h).bind ?_) hQ
  rintro _ rfl
  exact .pure rfl

theorem steps_alternative (h : Reads unary ws rest P) :
    Steps (alternative? unary) ((.symbol .pipe, t₁) :: ws) rest P := by
  refine reads_accept.bind ?_
  rintro _ rfl
  exact h.length_lt.map fun p hp => ⟨p, rfl, hp⟩

theorem reads_single (h : Reads unary ws rest P) (hrest : headKind rest ≠ some (.symbol .pipe)) :
    Reads (choice unary) ws rest P := by
  have hnone : Repeats (alternative? unary) rest rest fun ps => ps = [] :=
    repeats_noAlternative hrest rfl
  refine h.bind fun p hp => (reads_many hnone).bind ?_
  rintro _ rfl
  exact .pure hp

theorem reads_alternatives {Q : List Pattern → Prop} (h : Reads unary ws mid P)
    (hmore : Repeats (alternative? unary) mid rest fun ps => ps ≠ [] ∧ Q ps) :
    Reads (choice unary) ws rest
      fun p => ∃ span first ps, p = .choice span (first :: ps) ∧ P first ∧ Q ps := by
  refine h.bind fun p hp => (reads_many hmore).bind ?_
  rintro ps ⟨hne, hQ⟩
  rw [List.isEmpty_eq_false_iff.2 hne]
  exact (reads_spanFrom p.span).bind fun span _ => .pure ⟨span, p, ps, rfl, hp, hQ⟩

def OpensLabel (ws : List Word) : Prop :=
  headKind ws = some .identifier ∧
    (headKind ws.tail = some (.symbol .leftArrow) ∨
      headKind ws.tail = some (.symbol .colon) ∧ headKind ws.tail.tail ≠ some .string)

theorem reads_startsLabel (h : ¬OpensLabel ws) :
    Reads startsLabel ws ws fun b => b = false := by
  refine reads_at.bind ?_
  rintro _ rfl
  by_cases hname : headKind ws = some .identifier
  · rw [hname, beq_self_eq_true, if_pos rfl]
    refine (reads_peekAt 1).bind ?_
    rintro _ rfl
    have htail : ws[1]?.map Prod.fst = headKind ws.tail := by rw [← List.head?_tail]; rfl
    rw [htail]
    split
    · refine (reads_peekAt 2).bind ?_
      rintro _ rfl
      have htail' : ws[2]?.map Prod.fst = headKind ws.tail.tail := by
        rw [headKind, List.head?_tail, List.getElem?_tail]
      refine .pure ?_
      rw [htail']
      by_contra hstring
      exact h ⟨hname, .inr ⟨‹_›, by simpa using hstring⟩⟩
    · exact absurd ⟨hname, .inl ‹_›⟩ h
    · exact .pure rfl
  · rw [beq_eq_false_iff_ne.2 hname, if_neg Bool.false_ne_true]
    exact .pure rfl

theorem reads_free (hws : ¬OpensLabel ws) (h : Reads (choice unary) ws rest P) :
    Reads (field unary) ws rest fun f => f.1 = none ∧ P f.2 := by
  refine (reads_startsLabel hws).bind ?_
  rintro _ rfl
  exact h.bind fun p hp => .pure ⟨rfl, hp⟩

theorem reads_bound {name : String} (h : Reads (choice unary) ws rest P) :
    Reads (field unary) ((.identifier, name.toList) :: (.symbol .leftArrow, t₁) :: ws) rest
      fun f => ∃ label, f.1 = some label ∧ label.text = name ∧ P f.2 := by
  have hlabel : Reads startsLabel ((.identifier, name.toList) :: (.symbol .leftArrow, t₁) :: ws)
      ((.identifier, name.toList) :: (.symbol .leftArrow, t₁) :: ws) fun b => b = true := by
    refine reads_at.bind ?_
    rintro _ rfl
    refine (reads_peekAt 1).bind ?_
    rintro _ rfl
    exact .pure rfl
  refine hlabel.bind ?_
  rintro _ rfl
  refine (reads_name name).bind fun label hn => reads_advance.bind fun _ _ => ?_
  exact h.bind fun p hp => .pure ⟨label, rfl, hn, hp⟩

end

end Source.Parser

end TextGrammar
