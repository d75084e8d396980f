import TextGrammar.Proofs.Syntax.AcceptingStatements
import TextGrammar.Proofs.Syntax.Sources

/-! # Spelled patterns are accepted

Every spelling of a pattern is parsed as that pattern, in front of anything that is no part of it.
A label in front of a pattern is told from a new name behind one by the third mark. -/

namespace TextGrammar.Source.Parser
open Token (Kind)
variable {top n d : Nat} {action : Bool} {ws ws' rest : List Mark}

def labelers : List (Option Kind) :=
  [some (.symbol .colon), some (.symbol .leftArrow), some (.symbol .define)]

def OpensFree (ws : List Mark) : Prop :=
  ∃ m ws', ws = m :: ws' ∧ (m.kind = .identifier →
    (∃ text ws'', ws' = .symbol .colon :: .string text :: ws'') ∨
      ∀ rest, frontKind rest ∉ labelers → frontKind (ws' ++ rest) ∉ labelers)

namespace OpensFree

theorem of_ne_name {m : Mark} (hname : m.kind ≠ .identifier) : OpensFree (m :: ws) :=
  ⟨m, ws, rfl, fun heq => absurd heq hname⟩

theorem append_cons (h : OpensFree ws) {m : Mark} (hm : some m.kind ∉ labelers)
    (ws' : List Mark) : OpensFree (ws ++ m :: ws') := by
  obtain ⟨first, front, rfl, hname⟩ := h
  refine ⟨first, front ++ m :: ws', rfl, fun heq => ?_⟩
  obtain ⟨text, back, rfl⟩ | hfree := hname heq
  · exact .inl ⟨text, _, rfl⟩
  · refine .inr fun rest _ => ?_
    rw [List.append_assoc]
    exact hfree _ hm

theorem append_rename (h : OpensFree ws) (text : String) :
    OpensFree (ws ++ [.symbol .colon, .string text]) := by
  obtain ⟨first, front, rfl, hname⟩ := h
  refine ⟨first, front ++ [.symbol .colon, .string text], rfl, fun heq => ?_⟩
  obtain ⟨text', back, rfl⟩ | hfree := hname heq
  · exact .inl ⟨text', _, rfl⟩
  · cases front with
    | nil => exact .inl ⟨text, [], rfl⟩
    | cons m front => exact .inr fun rest _ => hfree [] (by decide)

end OpensFree

/-- Phrases of patterns but fields start like a pattern without a label does. -/
theorem spellsPattern_opens {phrase : PatternPhrase} (h : SpellsPattern n phrase action ws) :
    match phrase with
    | .field _ => True
    | _ => OpensFree ws := by
  induction h with
  | alone _ ih | choice _ ih | lastAlternative _ ih | bare _ ih => exact ih
  | nextAlternative _ _ ih _ => exact ih.append_cons (by decide) _
  | rename _ ih => exact ih.append_rename _
  | name => exact ⟨_, _, rfl, fun _ => .inr fun rest h => h⟩
  | free | arrow | colon => trivial
  | _ => exact .of_ne_name nofun

theorem opensFree {p : Pattern} (h : SpellsPattern n (.choice p) action ws) : OpensFree ws :=
  spellsPattern_opens h

theorem accepts_noLabel (h : OpensFree ws) (hrest : frontKind rest ∉ labelers) :
    Accepts top startsLabel ⟨d, ws ++ rest⟩ ⟨d, ws ++ rest⟩ fun b => b = false := by
  obtain ⟨m, front, rfl, hname⟩ := h
  refine accepts_at.bind ?_
  rintro _ rfl
  rw [List.cons_append, frontKind_cons]
  by_cases heq : m.kind = .identifier
  · rw [heq, beq_self_eq_true, if_pos rfl]
    refine (accepts_peekAt 1).bind ?_
    rintro _ rfl
    obtain ⟨text, back, rfl⟩ | hfree := hname heq
    · refine (accepts_peekAt 2).bind ?_
      rintro _ rfl
      exact .pure rfl
    · have hsecond := hfree rest hrest
      rw [frontKind, List.head?_eq_getElem?] at hsecond
      rw [List.getElem?_cons_succ]
      split
      · exact absurd (by rw [‹Option.map _ _ = _›]; decide) hsecond
      · exact absurd (by rw [‹Option.map _ _ = _›]; decide) hsecond
      · exact .pure rfl
  · rw [beq_eq_false_iff_ne.2 fun h => heq (Option.some.inj h)]
    exact .pure rfl

/-- What follows is no part of a pattern without a new name. An action in it may end in an
expression. -/
structure EndsPrimary (action : Bool) (ws : List Mark) : Prop where
  arrow : frontKind ws ≠ some (.symbol .fatArrow)
  body : action = true → EndsExpr ws

structure EndsSingle (action : Bool) (ws : List Mark) : Prop extends EndsPrimary action ws where
  colon : frontKind ws ≠ some (.symbol .colon)

structure EndsPattern (action : Bool) (ws : List Mark) : Prop extends EndsSingle action ws where
  pipe : frontKind ws ≠ some (.symbol .pipe)

/-- The signs that a pattern goes on with, but for those that only the expression of an action goes
on with. -/
def patternContinuers : List Kind := [.symbol .fatArrow, .symbol .colon, .symbol .pipe]

theorem endsPattern_cons {m : Mark} (h : m.kind ∉ patternContinuers)
    (haction : action = true → m.kind ∉ continuers) (ws : List Mark) :
    EndsPattern action (m :: ws) := by
  have hne : ∀ kind ∈ patternContinuers, frontKind (m :: ws) ≠ some kind :=
    fun kind hkind heq => h (Option.some.inj heq ▸ hkind)
  exact ⟨⟨⟨hne _ (by decide), fun ha => endsExpr_cons (haction ha) ws⟩, hne _ (by decide)⟩,
    hne _ (by decide)⟩

section
variable {unary : Parser Pattern} {expr : Parser Expr} {p : Pattern} {span : Span}

theorem accepts_patternName {text : String} :
    Accepts top (primary unary expr) ⟨d, .name text :: rest⟩ ⟨d, rest⟩
      fun x => x.bare = (Pattern.name span text).bare := by
  refine accepts_here.bind fun start _ => accepts_peek.bind ?_
  rintro _ rfl
  refine accepts_identifier.bind fun n hn => accepts_spanned fun _ => ?_
  obtain rfl := congrArg Name.text hn
  rfl

theorem accepts_literal {text : String} :
    Accepts top (primary unary expr) ⟨d, .string text :: rest⟩ ⟨d, rest⟩
      fun x => x.bare = (Pattern.literal span text).bare := by
  refine accepts_here.bind fun start _ => accepts_peek.bind ?_
  rintro _ rfl
  refine accepts_string.bind fun n hn => accepts_spanned fun _ => ?_
  obtain rfl := congrArg Name.text hn
  rfl

theorem accepts_group
    (h : Accepts top (choice unary) ⟨d, ws⟩ ⟨d, .symbol .rightParen :: rest⟩
      fun x => x.bare = p.bare) :
    Accepts top (primary unary expr) ⟨d, .symbol .leftParen :: ws⟩ ⟨d, rest⟩
      fun x => x.bare = (p.withSpan span).bare := by
  refine accepts_here.bind fun start _ => accepts_peek.bind ?_
  rintro _ rfl
  refine accepts_advance.bind fun _ _ => h.bind fun inner hinner => ?_
  refine (accepts_expect rfl).bind fun _ _ => accepts_spanned fun _ => ?_
  rw [Pattern.bare_withSpan, Pattern.bare_withSpan, hinner]

section
variable {fields : List Field}

theorem accepts_sequence
    (h : Accepts top (listUntil (.symbol .rightBracket) (field unary)) ⟨d, ws⟩ ⟨d, rest⟩
      fun xs => xs.map bareField = fields.map bareField)
    (hrest : frontKind rest ≠ some (.symbol .fatArrow)) :
    Accepts top (primary unary expr) ⟨d, .symbol .leftBracket :: ws⟩ ⟨d, rest⟩
      fun x => x.bare = (Pattern.sequence span fields none).bare := by
  refine accepts_here.bind fun start _ => accepts_peek.bind ?_
  rintro _ rfl
  refine accepts_advance.bind fun _ _ => h.bind fun xs hxs => ?_
  refine (accepts_accept_other hrest).bind ?_
  rintro _ rfl
  refine .pure_bind (accepts_spanned fun _ => ?_)
  rw [Pattern.bare, Pattern.bare, Pattern.bareFields_eq_map, Pattern.bareFields_eq_map, hxs]

theorem accepts_action {e : Expr}
    (h : Accepts top (listUntil (.symbol .rightBracket) (field unary)) ⟨d, ws⟩
      ⟨d, .symbol .fatArrow :: ws'⟩ fun xs => xs.map bareField = fields.map bareField)
    (hbody : Accepts top expr ⟨d, ws'⟩ ⟨d, rest⟩ fun x => x.bare = e.bare) :
    Accepts top (primary unary expr) ⟨d, .symbol .leftBracket :: ws⟩ ⟨d, rest⟩
      fun x => x.bare = (Pattern.sequence span fields (some e)).bare := by
  refine accepts_here.bind fun start _ => accepts_peek.bind ?_
  rintro _ rfl
  refine accepts_advance.bind fun _ _ => h.bind fun xs hxs => (accepts_accept rfl).bind ?_
  rintro _ rfl
  refine (accepts_some hbody).bind ?_
  rintro _ ⟨x, rfl, hx⟩
  refine accepts_spanned fun _ => ?_
  rw [Pattern.bare, Pattern.bare, Pattern.bareFields_eq_map, Pattern.bareFields_eq_map, hxs,
    Option.map_some, Option.map_some, hx]

end

theorem accepts_repetition (h : Accepts top unary ⟨d, ws⟩ ⟨d, rest⟩ fun x => x.bare = p.bare) :
    Accepts top (unaryBody unary expr) ⟨d, .keyword .repetition :: ws⟩ ⟨d, rest⟩
      fun x => x.bare = (Pattern.repetition span p).bare := by
  refine accepts_here.bind fun start _ => (accepts_accept rfl).bind ?_
  rintro _ rfl
  refine h.bind fun x hx => accepts_spanned fun _ => ?_
  rw [Pattern.bare, Pattern.bare, hx]

theorem accepts_negation (h : Accepts top unary ⟨d, ws⟩ ⟨d, rest⟩ fun x => x.bare = p.bare) :
    Accepts top (unaryBody unary expr) ⟨d, .symbol .bang :: ws⟩ ⟨d, rest⟩
      fun x => x.bare = (Pattern.negation span p).bare := by
  refine accepts_here.bind fun start _ => (accepts_accept_other (by simp [Mark.kind])).bind ?_
  rintro _ rfl
  refine (accepts_accept rfl).bind ?_
  rintro _ rfl
  refine h.bind fun x hx => accepts_spanned fun _ => ?_
  rw [Pattern.bare, Pattern.bare, hx]

/-- A pattern without a prefix starts with one of four marks. -/
theorem primary_front {n : Nat} (h : SpellsPattern n (.primary p) action ws) (rest : List Mark) :
    frontKind (ws ++ rest) ≠ some (.keyword .repetition) ∧
      frontKind (ws ++ rest) ≠ some (.symbol .bang) := by
  cases h <;> exact ⟨nofun, nofun⟩

theorem accepts_bare
    (hfront : frontKind ws ≠ some (.keyword .repetition) ∧ frontKind ws ≠ some (.symbol .bang))
    (h : Accepts top (primary unary expr) ⟨d, ws⟩ ⟨d, rest⟩ fun x => x.bare = p.bare)
    (hrest : frontKind rest ≠ some (.symbol .colon)) :
    Accepts top (unaryBody unary expr) ⟨d, ws⟩ ⟨d, rest⟩ fun x => x.bare = p.bare := by
  refine accepts_here.bind fun start _ => (accepts_accept_other hfront.1).bind ?_
  rintro _ rfl
  refine (accepts_accept_other hfront.2).bind ?_
  rintro _ rfl
  refine h.bind fun x hx => (accepts_at_other hrest).bind ?_
  rintro _ rfl
  exact (accepts_peekAt 1).bind fun _ _ => .pure hx

theorem accepts_rename {newName : Name}
    (hfront : frontKind ws ≠ some (.keyword .repetition) ∧ frontKind ws ≠ some (.symbol .bang))
    (h : Accepts top (primary unary expr) ⟨d, ws⟩
      ⟨d, .symbol .colon :: .string newName.text :: rest⟩ fun x => x.bare = p.bare) :
    Accepts top (unaryBody unary expr) ⟨d, ws⟩ ⟨d, rest⟩
      fun x => x.bare = (Pattern.rename span p newName).bare := by
  refine accepts_here.bind fun start _ => (accepts_accept_other hfront.1).bind ?_
  rintro _ rfl
  refine (accepts_accept_other hfront.2).bind ?_
  rintro _ rfl
  refine h.bind fun x hx => accepts_at.bind ?_
  rintro _ rfl
  refine (accepts_peekAt 1).bind ?_
  rintro _ rfl
  refine accepts_advance.bind fun _ _ => accepts_string.bind fun s hs => ?_
  refine accepts_spanned fun _ => ?_
  rw [Pattern.bare, Pattern.bare, hx, hs]
  rfl

theorem acceptsOne_alternative {P : Pattern → Prop}
    (h : Accepts top unary ⟨d, ws ++ rest⟩ ⟨d, rest⟩ P) :
    AcceptsOne top (alternative? unary) ⟨d, .symbol .pipe :: (ws ++ rest)⟩ ⟨d, rest⟩ P := by
  refine ⟨by simp only [List.length_cons, List.length_append]; omega, (accepts_accept rfl).bind ?_⟩
  rintro _ rfl
  exact accepts_some h

theorem accepts_noAlternative (h : frontKind ws ≠ some (.symbol .pipe)) :
    Accepts top (alternative? unary) ⟨d, ws⟩ ⟨d, ws⟩ fun o => o = none := by
  refine (accepts_accept_other h).bind ?_
  rintro _ rfl
  exact .pure rfl

theorem accepts_alone (h : Accepts top unary ⟨d, ws⟩ ⟨d, rest⟩ fun x => x.bare = p.bare)
    (hrest : frontKind rest ≠ some (.symbol .pipe)) :
    Accepts top (choice unary) ⟨d, ws⟩ ⟨d, rest⟩ fun x => x.bare = p.bare := by
  refine h.bind fun x hx => ?_
  refine (accepts_many (.stop (accepts_noAlternative hrest) (Q := (· = [])) rfl)).bind ?_
  rintro _ rfl
  exact .pure hx

theorem accepts_choice {q : Pattern} {ps : List Pattern}
    (h : Accepts top unary ⟨d, ws⟩ ⟨d, ws'⟩ fun x => x.bare = p.bare)
    (hmany : AcceptsMany top (alternative? unary) ⟨d, ws'⟩ ⟨d, rest⟩
      fun xs => xs.map Pattern.bare = (q :: ps).map Pattern.bare) :
    Accepts top (choice unary) ⟨d, ws⟩ ⟨d, rest⟩
      fun x => x.bare = (Pattern.choice span (p :: q :: ps)).bare := by
  refine h.bind fun x hx => (accepts_many hmany).bind fun xs hxs => ?_
  cases xs with
  | nil => cases hxs
  | cons y ys =>
    refine accepts_spanned fun _ => ?_
    rw [Pattern.bare, Pattern.bare, Pattern.bareAll_eq_map, Pattern.bareAll_eq_map]
    exact congrArg (Pattern.choice noSpan) (congrArg₂ List.cons hx hxs)

theorem accepts_free (hopens : OpensFree ws) (hrest : frontKind rest ∉ labelers)
    (h : Accepts top (choice unary) ⟨d, ws ++ rest⟩ ⟨d, rest⟩ fun x => x.bare = p.bare) :
    Accepts top (field unary) ⟨d, ws ++ rest⟩ ⟨d, rest⟩
      fun x => bareField x = bareField (none, p) := by
  refine (accepts_noLabel hopens hrest).bind ?_
  rintro _ rfl
  refine h.bind fun x hx => .pure ?_
  rw [bareField, bareField, hx]

theorem accepts_label {label : Name} {m : Mark} (hm : m.kind = .symbol .leftArrow ∨
      m.kind = .symbol .colon ∧ frontKind ws ≠ some .string)
    (h : Accepts top (choice unary) ⟨d, ws⟩ ⟨d, rest⟩ fun x => x.bare = p.bare) :
    Accepts top (field unary) ⟨d, .name label.text :: m :: ws⟩ ⟨d, rest⟩
      fun x => bareField x = bareField (some label, p) := by
  have hlabel : Accepts top startsLabel ⟨d, .name label.text :: m :: ws⟩
      ⟨d, .name label.text :: m :: ws⟩ fun b => b = true := by
    refine accepts_at.bind ?_
    rintro _ rfl
    refine (accepts_peekAt 1).bind ?_
    rintro _ rfl
    obtain hm | ⟨hm, hws⟩ := hm
    · simp only [List.getElem?_cons_succ, List.getElem?_cons_zero, Option.map_some, hm]
      exact .pure rfl
    · simp only [List.getElem?_cons_succ, List.getElem?_cons_zero, Option.map_some, hm]
      refine (accepts_peekAt 2).bind ?_
      rintro _ rfl
      refine .pure (bne_iff_ne.2 ?_)
      rwa [frontKind, List.head?_eq_getElem?] at hws
  refine hlabel.bind ?_
  rintro _ rfl
  refine accepts_identifier.bind fun n hn => accepts_advance.bind fun _ _ => ?_
  refine h.bind fun x hx => .pure ?_
  rw [bareField, bareField, Option.map_some, Option.map_some, hn, hx]
  rfl

end

def AcceptsPrimary (top n : Nat) (p : Pattern) (action : Bool) (ws : List Mark) : Prop :=
  ∀ f d rest, nestingLimit ≤ f + d → d + n ≤ top → EndsPrimary action rest →
    Accepts top (primary (unary f) (expr f)) ⟨d, ws ++ rest⟩ ⟨d, rest⟩ fun x => x.bare = p.bare

def AcceptsUnary (top n : Nat) (p : Pattern) (action : Bool) (ws : List Mark) : Prop :=
  ∀ f d rest, nestingLimit ≤ f + d → d + n ≤ top → EndsSingle action rest →
    Accepts top (unary f) ⟨d, ws ++ rest⟩ ⟨d, rest⟩ fun x => x.bare = p.bare

def AcceptsChoice (top n : Nat) (p : Pattern) (action : Bool) (ws : List Mark) : Prop :=
  ∀ f d rest, nestingLimit ≤ f + d → d + n ≤ top → EndsPattern action rest →
    Accepts top (choice (unary f)) ⟨d, ws ++ rest⟩ ⟨d, rest⟩ fun x => x.bare = p.bare

/-- The spelling of alternatives is accepted in two parts: the first one, and the others with a bar
in front of each. -/
def AcceptsAlternatives (top n : Nat) (ps : List Pattern) (action : Bool) (ws : List Mark) :
    Prop :=
  ∃ p qs front tail, ps = p :: qs ∧ ws = front ++ tail ∧
    ∀ f d rest, nestingLimit ≤ f + d → d + n ≤ top → EndsPattern action rest →
      Accepts top (unary f) ⟨d, front ++ (tail ++ rest)⟩ ⟨d, tail ++ rest⟩
          (fun x => x.bare = p.bare) ∧
        AcceptsMany top (alternative? (unary f)) ⟨d, tail ++ rest⟩ ⟨d, rest⟩
          fun xs => xs.map Pattern.bare = qs.map Pattern.bare

/-- The spelling of a field of a sequence is accepted in front of another one or of the end of
the sequence. -/
def AcceptsField (top n : Nat) (g : Field) (ws : List Mark) : Prop :=
  ∀ f d, nestingLimit ≤ f + d → d + n ≤ top →
    AcceptsItem top d .rightBracket (field (unary f)) bareField g ws

def PatternAccepted (top n : Nat) : PatternPhrase → Bool → List Mark → Prop
  | .choice p => AcceptsChoice top n p
  | .alternatives ps => AcceptsAlternatives top n ps
  | .unary p => AcceptsUnary top n p
  | .primary p => AcceptsPrimary top n p
  | .field g => fun _ => AcceptsField top n g

section
variable {p : Pattern} {ps : List Pattern} {span : Span} {fields : List Field}
  {items : List (List Mark)}

theorem acceptsUnary_of (h : ∀ f d rest, nestingLimit ≤ f + d → d + n ≤ top →
      EndsSingle action rest → Accepts top (unaryBody (unary f) (expr f)) ⟨d, ws ++ rest⟩ ⟨d, rest⟩
        fun x => x.bare = p.bare) : AcceptsUnary top (n + 1) p action ws := by
  intro f d rest hf hd hrest
  cases f with
  | zero => exact .tooDeep (by omega)
  | succ f => exact accepts_nested (by omega) (h f (d + 1) rest (by omega) (by omega) hrest)

theorem AcceptsUnary.alone (h : AcceptsUnary top n p action ws) :
    AcceptsChoice top n p action ws :=
  fun f d rest hf hd hrest => accepts_alone (h f d rest hf hd hrest.toEndsSingle) hrest.pipe

theorem AcceptsAlternatives.choice {q : Pattern}
    (h : AcceptsAlternatives top n (p :: q :: ps) action ws) :
    AcceptsChoice top n (.choice span (p :: q :: ps)) action ws := by
  obtain ⟨p, qs, front, tail, hps, rfl, h⟩ := h
  obtain ⟨rfl, rfl⟩ := List.cons.inj hps
  intro f d rest hf hd hrest
  obtain ⟨hfirst, hmany⟩ := h f d rest hf hd hrest
  rw [List.append_assoc]
  exact accepts_choice hfirst hmany

theorem AcceptsUnary.last (h : AcceptsUnary top n p action ws) :
    AcceptsAlternatives top n [p] action ws :=
  ⟨p, [], ws, [], rfl, (List.append_nil ws).symm, fun f d rest hf hd hrest =>
    ⟨h f d rest hf hd hrest.toEndsSingle, .stop (accepts_noAlternative hrest.pipe) rfl⟩⟩

theorem AcceptsUnary.next (h : AcceptsUnary top n p true ws)
    (hrest : AcceptsAlternatives top n ps action ws') :
    AcceptsAlternatives top n (p :: ps) action (ws ++ .symbol .pipe :: ws') := by
  obtain ⟨q, qs, front, tail, rfl, rfl, hmore⟩ := hrest
  refine ⟨p, q :: qs, ws, _, rfl, rfl, fun f d rest hf hd hrest => ?_⟩
  obtain ⟨hfirst, hmany⟩ := hmore f d rest hf hd hrest
  have hends : EndsSingle true (.symbol .pipe :: (front ++ (tail ++ rest))) :=
    ⟨⟨nofun, fun _ => endsExpr_cons (by decide) _⟩, nofun⟩
  rw [List.cons_append, List.append_assoc]
  refine ⟨h f d _ hf hd hends, .more (acceptsOne_alternative hfirst) fun x hx => ?_⟩
  refine hmany.weaken fun xs hxs => ?_
  rw [List.map_cons, List.map_cons, hx, hxs]

/-- The fields of a sequence are accepted one by one. -/
theorem accepts_fields {f : Nat} (hlength : fields.length = items.length)
    (hitems : ∀ x ∈ fields.zip items, AcceptsField top n x.1 x.2) (hws : Listed items ws)
    (hf : nestingLimit ≤ f + d) (hd : d + n ≤ top) :
    Accepts top (listUntil (.symbol .rightBracket) (field (unary f)))
      ⟨d, ws ++ .symbol .rightBracket :: rest⟩ ⟨d, rest⟩
      fun xs => xs.map bareField = fields.map bareField :=
  accepts_listUntil nofun hws hlength fun x hx => hitems x hx f d hf hd

/-- A comma and the end of a sequence end a pattern. -/
theorem AcceptsChoice.item {f : Nat} (h : AcceptsChoice top n p action ws)
    (hf : nestingLimit ≤ f + d) (hd : d + n ≤ top)
    (hrest : frontKind rest = some (.symbol .comma) ∨
      frontKind rest = some (.symbol .rightBracket)) :
    frontKind rest ∉ labelers ∧
      Accepts top (choice (unary f)) ⟨d, ws ++ rest⟩ ⟨d, rest⟩ fun x => x.bare = p.bare := by
  cases rest with
  | nil =>
    obtain hnone | hnone := hrest
    · cases hnone
    · cases hnone
  | cons m rest =>
    have hall : ∀ kind : Kind, kind = .symbol .comma ∨ kind = .symbol .rightBracket →
        some kind ∉ labelers ∧ kind ∉ patternContinuers ∧ kind ∉ continuers := by
      rintro _ (rfl | rfl) <;> decide
    obtain ⟨hlabel, hpattern, hexpr⟩ := hall m.kind (hrest.imp Option.some.inj Option.some.inj)
    exact ⟨hlabel, h f d _ hf hd (endsPattern_cons hpattern (fun _ => hexpr) rest)⟩

end

theorem spellsPattern_accepted {phrase : PatternPhrase}
    (h : SpellsPattern n phrase action ws) : PatternAccepted top n phrase action ws := by
  induction h with
  | alone _ ih => exact AcceptsUnary.alone ih
  | choice _ ih => exact AcceptsAlternatives.choice ih
  | lastAlternative _ ih => exact AcceptsUnary.last ih
  | nextAlternative _ _ ih ih' => exact AcceptsUnary.next ih ih'
  | repetition _ ih =>
    exact acceptsUnary_of fun f d rest hf hd hrest => accepts_repetition (ih f d rest hf hd hrest)
  | negation _ ih =>
    exact acceptsUnary_of fun f d rest hf hd hrest => accepts_negation (ih f d rest hf hd hrest)
  | bare h ih =>
    exact acceptsUnary_of fun f d rest hf hd hrest => accepts_bare (primary_front h rest)
      (ih f d rest hf hd hrest.toEndsPrimary) hrest.colon
  | rename h ih =>
    refine acceptsUnary_of fun f d rest hf hd hrest => ?_
    rw [List.append_assoc]
    exact accepts_rename (primary_front h _)
      (ih f d _ hf hd ⟨nofun, fun _ => endsExpr_cons (by decide) _⟩)
  | name => exact fun _ _ _ _ _ _ => accepts_patternName
  | literal => exact fun _ _ _ _ _ _ => accepts_literal
  | parens _ ih =>
    intro f d rest hf hd _
    simp only [List.cons_append, List.append_assoc, List.nil_append]
    exact accepts_group (ih f d _ hf hd (endsPattern_cons (by decide) (by decide) _))
  | sequence hlength hitems hws ih =>
    intro f d rest hf hd hrest
    simp only [List.cons_append, List.append_assoc, List.nil_append]
    exact accepts_sequence (accepts_fields hlength ih hws hf hd) hrest.arrow
  | action hlength hitems hws hbody ih =>
    intro f d rest hf hd hrest
    simp only [List.cons_append, List.append_assoc]
    exact accepts_action (accepts_fields hlength ih hws hf hd)
      (spells_accepted hbody f d rest hf hd (hrest.body rfl))
  | free h ih =>
    refine fun f d hf hd => ⟨?_, fun rest hrest => ?_⟩
    · obtain ⟨m, ws', rfl, hm⟩ := spellsPattern_front h
      exact ⟨m, ws', rfl, fun heq => absurd (heq ▸ hm) (by decide)⟩
    · obtain ⟨hlabel, haccepts⟩ := AcceptsChoice.item ih hf hd hrest
      exact accepts_free (opensFree h) hlabel haccepts
  | arrow _ ih =>
    refine fun f d hf hd => ⟨⟨_, _, rfl, nofun⟩, fun rest hrest => ?_⟩
    exact accepts_label (.inl rfl) (AcceptsChoice.item ih hf hd hrest).2
  | colon h hws ih =>
    refine fun f d hf hd => ⟨⟨_, _, rfl, nofun⟩, fun rest hrest => ?_⟩
    refine accepts_label (.inr ⟨rfl, ?_⟩) (AcceptsChoice.item ih hf hd hrest).2
    obtain ⟨m, ws', rfl, -⟩ := spellsPattern_front h
    exact hws

end TextGrammar.Source.Parser
