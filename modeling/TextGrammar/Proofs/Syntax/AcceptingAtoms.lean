import TextGrammar.Proofs.Syntax.AcceptingExpressions

/-! # Spelled atoms are accepted

An atom is known by its first mark, and a record from a block by the two marks behind the brace. -/

namespace TextGrammar.Source.Parser
open Token (Kind)
variable {top d : Nat} {ws rest : List Mark}

section
variable {expr : Parser Expr} {block : Parser Block} {e : Expr} {span : Span}

theorem accepts_numeral {negative : Bool} {digits : List Char} (h : Numeral negative digits e) :
    Accepts top (atom expr block)
      ⟨d, ((if negative then [.symbol .minus] else []) ++ [.number digits]) ++ rest⟩ ⟨d, rest⟩
      fun x => x.bare = e.bare := by
  cases negative with
  | false =>
    refine accepts_here.bind fun start _ => accepts_peek.bind ?_
    rintro _ rfl
    exact (accepts_expect rfl).bind fun t ht => accepts_number h ht _
  | true =>
    refine accepts_here.bind fun start _ => accepts_peek.bind ?_
    rintro _ rfl
    refine (accepts_peekAt 1).bind ?_
    rintro _ rfl
    refine accepts_advance.bind fun _ _ => ?_
    exact (accepts_expect rfl).bind fun t ht => accepts_number h ht _

theorem accepts_str {s : String} :
    Accepts top (atom expr block) ⟨d, .string s :: rest⟩ ⟨d, rest⟩
      fun x => x.bare = (Expr.str span s).bare := by
  refine accepts_here.bind fun start _ => accepts_peek.bind ?_
  rintro _ rfl
  refine accepts_string.bind fun n hn => accepts_spanned fun span => ?_
  obtain rfl := congrArg Name.text hn
  rfl

theorem accepts_true :
    Accepts top (atom expr block) ⟨d, .keyword .trueValue :: rest⟩ ⟨d, rest⟩
      fun x => x.bare = (Expr.bool span true).bare := by
  refine accepts_here.bind fun start _ => accepts_peek.bind ?_
  rintro _ rfl
  exact accepts_advance.bind fun _ _ => accepts_spanned fun _ => rfl

theorem accepts_false :
    Accepts top (atom expr block) ⟨d, .keyword .falseValue :: rest⟩ ⟨d, rest⟩
      fun x => x.bare = (Expr.bool span false).bare := by
  refine accepts_here.bind fun start _ => accepts_peek.bind ?_
  rintro _ rfl
  exact accepts_advance.bind fun _ _ => accepts_spanned fun _ => rfl

theorem accepts_null :
    Accepts top (atom expr block) ⟨d, .keyword .nullValue :: rest⟩ ⟨d, rest⟩
      fun x => x.bare = (Expr.null span).bare := by
  refine accepts_here.bind fun start _ => accepts_peek.bind ?_
  rintro _ rfl
  exact accepts_advance.bind fun _ _ => accepts_spanned fun _ => rfl

theorem accepts_name {text : String} (hrest : frontKind rest ≠ some (.symbol .leftParen)) :
    Accepts top (atom expr block) ⟨d, .name text :: rest⟩ ⟨d, rest⟩
      fun x => x.bare = (Expr.name span text).bare := by
  refine accepts_here.bind fun start _ => accepts_peek.bind ?_
  rintro _ rfl
  refine accepts_identifier.bind fun n hn => (accepts_accept_other hrest).bind ?_
  rintro _ rfl
  refine accepts_spanned fun span => ?_
  obtain rfl := congrArg Name.text hn
  rfl

theorem accepts_call {callee : Name} {es : List Expr}
    (h : Accepts top (listUntil (.symbol .rightParen) expr) ⟨d, ws⟩ ⟨d, rest⟩
      fun xs => xs.map Expr.bare = es.map Expr.bare) :
    Accepts top (atom expr block) ⟨d, .name callee.text :: .symbol .leftParen :: ws⟩ ⟨d, rest⟩
      fun x => x.bare = (Expr.call span callee es).bare := by
  refine accepts_here.bind fun start _ => accepts_peek.bind ?_
  rintro _ rfl
  refine accepts_identifier.bind fun n hn => (accepts_accept rfl).bind ?_
  rintro _ rfl
  refine h.bind fun xs hxs => accepts_spanned fun span => ?_
  rw [Expr.bare, Expr.bare, Expr.bareAll_eq_map, Expr.bareAll_eq_map, hxs, hn]
  rfl

theorem accepts_parens
    (h : Accepts top expr ⟨d, ws⟩ ⟨d, .symbol .rightParen :: rest⟩ fun x => x.bare = e.bare) :
    Accepts top (atom expr block) ⟨d, .symbol .leftParen :: ws⟩ ⟨d, rest⟩
      fun x => x.bare = (e.withSpan span).bare := by
  refine accepts_here.bind fun start _ => accepts_peek.bind ?_
  rintro _ rfl
  refine accepts_advance.bind fun _ _ => h.bind fun inner hinner => ?_
  refine (accepts_expect rfl).bind fun _ _ => accepts_spanned fun _ => ?_
  rw [Expr.bare_withSpan, Expr.bare_withSpan, hinner]

theorem accepts_list {es : List Expr}
    (h : Accepts top (listUntil (.symbol .rightBracket) expr) ⟨d, ws⟩ ⟨d, rest⟩
      fun xs => xs.map Expr.bare = es.map Expr.bare) :
    Accepts top (atom expr block) ⟨d, .symbol .leftBracket :: ws⟩ ⟨d, rest⟩
      fun x => x.bare = (Expr.list span es).bare := by
  refine accepts_here.bind fun start _ => accepts_peek.bind ?_
  rintro _ rfl
  refine accepts_advance.bind fun _ _ => h.bind fun xs hxs => accepts_spanned fun _ => ?_
  rw [Expr.bare, Expr.bare, Expr.bareAll_eq_map, Expr.bareAll_eq_map, hxs]

/-- Behind the brace of a record stands the other brace, or a name and a colon. -/
theorem accepts_record {fields : List (Name × Expr)} (hfront : frontKind ws =
      some (.symbol .rightBrace) ∨ ∃ text ws', ws = .name text :: .symbol .colon :: ws')
    (h : Accepts top (listUntil (.symbol .rightBrace) (recordField expr)) ⟨d, ws⟩ ⟨d, rest⟩
      fun xs => xs.map bareEntry = fields.map bareEntry) :
    Accepts top (atom expr block) ⟨d, .symbol .leftBrace :: ws⟩ ⟨d, rest⟩
      fun x => x.bare = (Expr.record span fields).bare := by
  have hstarts : Accepts top startsRecord ⟨d, .symbol .leftBrace :: ws⟩
      ⟨d, .symbol .leftBrace :: ws⟩ fun b => b = true := by
    refine (accepts_peekAt 1).bind ?_
    rintro _ rfl
    refine (accepts_peekAt 2).bind ?_
    rintro _ rfl
    refine .pure ?_
    obtain hbrace | ⟨text, ws', rfl⟩ := hfront
    · rw [frontKind, List.head?_eq_getElem?] at hbrace
      rw [List.getElem?_cons_succ, hbrace]
      rfl
    · rfl
  refine accepts_here.bind fun start _ => accepts_peek.bind ?_
  rintro _ rfl
  refine hstarts.bind ?_
  rintro _ rfl
  refine accepts_advance.bind fun _ _ => h.bind fun xs hxs => accepts_spanned fun _ => ?_
  rw [Expr.bare, Expr.bare, Expr.bareFields_eq_map, Expr.bareFields_eq_map]
  exact congrArg _ hxs

theorem accepts_block {b : Block} (hbody : OpensBody ws)
    (h : Accepts top block ⟨d, .symbol .leftBrace :: ws⟩ ⟨d, rest⟩ fun x => x.bare = b.bare) :
    Accepts top (atom expr block) ⟨d, .symbol .leftBrace :: ws⟩ ⟨d, rest⟩
      fun x => x.bare = (Expr.block span b).bare := by
  have hstarts : Accepts top startsRecord ⟨d, .symbol .leftBrace :: ws⟩
      ⟨d, .symbol .leftBrace :: ws⟩ fun b => b = false := by
    refine (accepts_peekAt 1).bind ?_
    rintro _ rfl
    refine (accepts_peekAt 2).bind ?_
    rintro _ rfl
    refine .pure ?_
    obtain ⟨m, ws', rfl, hm, hname⟩ := hbody
    have hcolon : m.kind = .identifier → ws'[0]?.map Mark.kind ≠ some (.symbol .colon) := by
      intro heq
      have hfront := hname heq []
      rwa [List.append_nil, frontKind, List.head?_eq_getElem?] at hfront
    simpa [hm] using hcolon
  refine accepts_here.bind fun start _ => accepts_peek.bind ?_
  rintro _ rfl
  refine hstarts.bind ?_
  rintro _ rfl
  refine h.bind fun x hx => accepts_spanned fun _ => ?_
  rw [Expr.bare, Expr.bare, hx]

theorem accepts_recordField {name : Name}
    (h : Accepts top expr ⟨d, ws⟩ ⟨d, rest⟩ fun x => x.bare = e.bare) :
    Accepts top (recordField expr) ⟨d, .name name.text :: .symbol .colon :: ws⟩ ⟨d, rest⟩
      fun x => bareEntry x = bareEntry (name, e) := by
  refine accepts_identifier.bind fun n hn => (accepts_expect rfl).bind fun _ _ => ?_
  refine h.bind fun x hx => .pure ?_
  rw [bareEntry, bareEntry, hn, hx]
  rfl

end

section
variable {n : Nat} {e : Expr} {span : Span} {items : List (List Mark)}

/-- An atom takes a level. -/
theorem acceptsAtom_of (h : ∀ f d rest, nestingLimit ≤ f + d → d + n ≤ top →
      frontKind rest ≠ some (.symbol .leftParen) →
      Accepts top (atom (expr f) (block f)) ⟨d, ws ++ rest⟩ ⟨d, rest⟩ fun x => x.bare = e.bare) :
    AcceptsAtom top (n + 1) e ws :=
  fun f d rest hf hd hrest =>
    accepts_nested (by omega) (h f (d + 1) rest (by omega) (by omega) hrest)

/-- An expression is an item of a list that no expression starts or goes on with the end of. -/
theorem AcceptsExpr.item {f : Nat} {close : Symbol} (h : AcceptsExpr top n e ws)
    (hopens : OpensExpr ws) (hclose : .symbol close ∉ openers ∧ .symbol close ∉ continuers)
    (hf : nestingLimit ≤ f + d) (hd : d + n ≤ top) :
    AcceptsItem top d close (expr f) Expr.bare e ws := by
  refine ⟨hopens.front_ne hclose.1, fun rest hrest => h f d rest hf hd ?_⟩
  refine endsExpr_of_front fun kind hkind heq => ?_
  obtain hcomma | hcomma := hrest
  · obtain rfl := Option.some.inj (hcomma.symm.trans heq)
    exact absurd hkind (by decide)
  · obtain rfl := Option.some.inj (hcomma.symm.trans heq)
    exact hclose.2 hkind

theorem acceptsAtom_call {callee : Name} {es : List Expr} (hlength : es.length = items.length)
    (hitems : ∀ x ∈ es.zip items, AcceptsExpr top n x.1 x.2)
    (hopens : ∀ x ∈ es.zip items, OpensExpr x.2) (hws : Listed items ws) :
    AcceptsAtom top (n + 1) (.call span callee es)
      (.name callee.text :: .symbol .leftParen :: (ws ++ [.symbol .rightParen])) := by
  refine acceptsAtom_of fun f d rest hf hd _ => ?_
  simp only [List.cons_append, List.append_assoc, List.nil_append]
  exact accepts_call (accepts_listUntil nofun hws hlength
    fun x hx => (hitems x hx).item (hopens x hx) (by decide) hf hd)

theorem acceptsAtom_list {es : List Expr} (hlength : es.length = items.length)
    (hitems : ∀ x ∈ es.zip items, AcceptsExpr top n x.1 x.2)
    (hopens : ∀ x ∈ es.zip items, OpensExpr x.2) (hws : Listed items ws) :
    AcceptsAtom top (n + 1) (.list span es)
      (.symbol .leftBracket :: (ws ++ [.symbol .rightBracket])) := by
  refine acceptsAtom_of fun f d rest hf hd _ => ?_
  simp only [List.cons_append, List.append_assoc, List.nil_append]
  exact accepts_list (accepts_listUntil nofun hws hlength
    fun x hx => (hitems x hx).item (hopens x hx) (by decide) hf hd)

/-- A list starts with its first item, if it has one. -/
theorem listed_front (h : Listed items ws) :
    ws = [] ∨ ∃ item items' tail, items = item :: items' ∧ ws = item ++ tail := by
  cases h with
  | nil => exact .inl rfl
  | last => exact .inr ⟨_, _, [], rfl, (List.append_nil _).symm⟩
  | more => exact .inr ⟨_, _, _, rfl, rfl⟩

theorem acceptsAtom_record {fields : List (Name × Expr)} (hlength : fields.length = items.length)
    (hitems : ∀ x ∈ fields.zip items, AcceptsEntry top n x.1 x.2)
    (hopens : ∀ x ∈ fields.zip items, ∃ text ws', x.2 = .name text :: .symbol .colon :: ws')
    (hws : Listed items ws) :
    AcceptsAtom top (n + 1) (.record span fields)
      (.symbol .leftBrace :: (ws ++ [.symbol .rightBrace])) := by
  refine acceptsAtom_of fun f d rest hf hd _ => ?_
  simp only [List.cons_append, List.append_assoc, List.nil_append]
  refine accepts_record ?_ (accepts_listUntil nofun hws hlength fun x hx => ⟨?_, ?_⟩)
  · obtain rfl | ⟨item, items', tail, rfl, rfl⟩ := listed_front hws
    · exact .inl rfl
    · obtain ⟨g, fields, rfl⟩ := List.exists_cons_of_length_eq_add_one hlength
      obtain ⟨text, ws', hmarks⟩ := hopens (g, item) List.mem_cons_self
      obtain rfl : item = _ := hmarks
      exact .inr ⟨text, _, rfl⟩
  · obtain ⟨text, ws', hmarks⟩ := hopens x hx
    exact ⟨_, _, hmarks, nofun⟩
  · intro rest hrest
    refine hitems x hx f d rest hf hd (endsExpr_of_front fun kind hkind heq => ?_)
    obtain hfront | hfront := hrest
    · obtain rfl := Option.some.inj (hfront.symm.trans heq)
      exact absurd hkind (by decide)
    · obtain rfl := Option.some.inj (hfront.symm.trans heq)
      exact absurd hkind (by decide)

end

end TextGrammar.Source.Parser
