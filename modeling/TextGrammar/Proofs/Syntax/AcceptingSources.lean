import Mathlib.Data.List.Chain
import Mathlib.Data.List.TakeWhile
import TextGrammar.Proofs.Syntax.AcceptingPatterns

/-! # Spelled sources are accepted

The entries of a source are accepted one by one, each in front of another one or of the closing
brace. The rules in front of the first separator are read apart from the entries behind it. -/

namespace TextGrammar.Source

def Parser.Item.bare : Parser.Item → Parser.Item
  | .separator _ => .separator noSpan
  | .rule r => .rule r.bare
  | .start p => .start p.bare

namespace Parser
open Token (Kind)
variable {top n d : Nat} {rest : List Mark} {x : Entry}

def EndsEntry (action : Bool) (ws : List Mark) : Prop :=
  ∃ m ws', ws = m :: ws' ∧
    (m.kind = .symbol .rightBrace ∨ m.kind = .dashes ∨ m.kind ∈ patternOpeners) ∧
    (action = true → m.kind ≠ .symbol .leftParen ∧ m.kind ≠ .symbol .leftBracket)

theorem EndsEntry.pattern {action : Bool} (h : EndsEntry action rest) :
    EndsPattern action rest ∧ frontKind rest ∉ labelers ∧
      frontKind rest ≠ some (.symbol .semicolon) ∧ frontKind rest ≠ some (.symbol .comma) := by
  obtain ⟨m, ws', rfl, hm, haction⟩ := h
  have hall : ∀ kind : Kind, kind = .symbol .rightBrace ∨ kind = .dashes ∨ kind ∈ patternOpeners →
      kind ∉ patternContinuers ∧
      (kind ≠ .symbol .leftParen ∧ kind ≠ .symbol .leftBracket → kind ∉ continuers) ∧
      some kind ∉ labelers ∧ some kind ≠ some (.symbol .semicolon) ∧
      some kind ≠ some (.symbol .comma) := by
    rintro kind (rfl | rfl | hkind)
    · decide
    · decide
    · revert kind
      decide
  obtain ⟨hpattern, hexpr, hrest⟩ := hall m.kind hm
  exact ⟨endsPattern_cons hpattern (fun ha => hexpr (haction ha)) ws', hrest⟩

theorem choice_accepted (top : Nat) {p : Pattern} {action : Bool} {ws : List Mark}
    (h : SpellsPattern n (.choice p) action ws) : AcceptsChoice top n p action ws :=
  spellsPattern_accepted h

theorem accepts_rule {r : Rule} {ws : List Mark}
    (h : SpellsPattern n (.choice r.body) true ws) :
    Accepts n rule ⟨0, .name r.name.text :: .symbol .define :: (ws ++ .symbol .semicolon :: rest)⟩
      ⟨0, rest⟩ fun x => x.bare = r.bare := by
  refine accepts_identifier.bind fun name hname => (accepts_expect rfl).bind fun _ _ => ?_
  have hbody := choice_accepted n h nestingLimit 0 (.symbol .semicolon :: rest)
    (Nat.le_refl _) (by omega) (endsPattern_cons (by decide) (by decide) _)
  refine hbody.bind fun body hbody => (accepts_expect rfl).bind fun _ _ => .pure ?_
  rw [Rule.bare, Rule.bare, hname, hbody]
  rfl

theorem accepts_startsRule {v : View} : Accepts top startsRule v v fun b =>
    b = (frontKind v.marks == some .identifier &&
      v.marks[1]?.map Mark.kind == some (.symbol .define)) := by
  refine accepts_at.bind ?_
  rintro _ rfl
  refine (accepts_peekAt 1).bind ?_
  rintro _ rfl
  exact .pure rfl

/-- A start pattern is told from a rule by the mark behind its first one. -/
theorem accepts_noRule {ws : List Mark} (h : OpensFree ws) (hrest : frontKind rest ∉ labelers) :
    Accepts top startsRule ⟨d, ws ++ rest⟩ ⟨d, ws ++ rest⟩ fun b => b = false := by
  refine accepts_startsRule.weaken ?_
  rintro _ rfl
  obtain ⟨m, front, rfl, hname⟩ := h
  rw [Bool.and_eq_false_iff, beq_eq_false_iff_ne, beq_eq_false_iff_ne, or_iff_not_imp_left,
    not_not]
  intro heq hdefine
  obtain ⟨text, back, rfl⟩ | hfree := hname (Option.some.inj heq)
  · cases hdefine
  · have hsecond := hfree rest hrest
    rw [frontKind, List.head?_eq_getElem?] at hsecond
    rw [List.cons_append, List.getElem?_cons_succ] at hdefine
    rw [hdefine] at hsecond
    exact hsecond (by decide)

theorem accepts_startPattern {p : Pattern} {action : Bool} {ws : List Mark}
    (h : SpellsPattern n (.choice p) action ws) (hrest : EndsEntry action rest) :
    Accepts n startPattern ⟨0, ws ++ rest⟩ ⟨0, rest⟩ fun x => x.bare = p.bare := by
  obtain ⟨hends, -, hsemicolon, hcomma⟩ := hrest.pattern
  have hpattern := choice_accepted n h nestingLimit 0 rest (Nat.le_refl _)
    (by omega) hends
  refine hpattern.bind fun x hx => (accepts_accept_other hsemicolon).bind ?_
  rintro _ rfl
  exact (accepts_accept_other hcomma).bind fun _ _ => .pure hx

theorem accepts_endedStart {p : Pattern} {ws : List Mark} {stop : Symbol}
    (h : SpellsPattern n (.choice p) true ws) (hstop : stop = .semicolon ∨ stop = .comma) :
    Accepts n startPattern ⟨0, ws ++ .symbol stop :: rest⟩ ⟨0, rest⟩
      fun x => x.bare = p.bare := by
  have hends : EndsPattern true (.symbol stop :: rest) := by
    obtain rfl | rfl := hstop
    · exact endsPattern_cons (by decide) (by decide) _
    · exact endsPattern_cons (by decide) (by decide) _
  have hpattern := choice_accepted n h nestingLimit 0 _ (Nat.le_refl _)
    (by omega) hends
  refine hpattern.bind fun x hx => ?_
  obtain rfl | rfl := hstop
  · refine (accepts_accept rfl).bind ?_
    rintro _ rfl
    exact .pure hx
  · refine (accepts_accept_other (by simp [Mark.kind])).bind ?_
    rintro _ rfl
    exact (accepts_accept rfl).bind fun _ _ => .pure hx

/-- A start pattern starts neither like a separator nor like a rule does. -/
theorem accepts_startItem {p : Pattern} {action : Bool} {ws rest' : List Mark}
    (h : SpellsPattern n (.choice p) action ws) (hrest : frontKind rest ∉ labelers)
    (hp : Accepts top startPattern ⟨0, ws ++ rest⟩ ⟨0, rest'⟩ fun x => x.bare = p.bare) :
    Accepts top item? ⟨0, ws ++ rest⟩ ⟨0, rest'⟩
      fun o => ∃ i, o = some i ∧ i.bare = (Item.start p).bare := by
  have hne : ∀ kind : Kind, kind ∉ patternOpeners → frontKind (ws ++ rest) ≠ some kind := by
    obtain ⟨m, ws, rfl, hm⟩ := spellsPattern_front h
    exact fun kind hkind heq => hkind (Option.some.inj heq ▸ hm)
  refine (accepts_at_other (hne _ (by decide))).bind ?_
  rintro _ rfl
  refine (accepts_at_other (hne _ (by decide))).bind ?_
  rintro _ rfl
  refine (accepts_noRule (opensFree h) hrest).bind ?_
  rintro _ rfl
  exact hp.bind fun x hx => .pure ⟨_, rfl, congrArg Item.start hx⟩

/-- An entry behind the first separator is accepted. -/
theorem acceptsOne_item (h : SpellsEntry n x) (hrest : EndsEntry x.action rest) :
    AcceptsOne n item? ⟨0, x.marks ++ rest⟩ ⟨0, rest⟩ fun i => i.bare = x.item.bare := by
  constructor
  · obtain ⟨m, ws, hmarks, -⟩ := spellsEntry_front h
    simp only [hmarks, List.length_append, List.length_cons]
    omega
  cases h with
  | separator =>
    refine (accepts_at_other (by simp [Mark.kind])).bind ?_
    rintro _ rfl
    refine accepts_at.bind ?_
    rintro _ rfl
    exact accepts_here.bind fun span _ => accepts_advance.bind fun _ _ => .pure ⟨_, rfl, rfl⟩
  | rule h =>
    refine (accepts_at_other (by simp [Mark.kind])).bind ?_
    rintro _ rfl
    refine (accepts_at_other (by simp [Mark.kind])).bind ?_
    rintro _ rfl
    refine accepts_startsRule.bind ?_
    rintro _ rfl
    simp only [List.cons_append, List.append_assoc, List.nil_append]
    exact (accepts_rule h).bind fun r hr => .pure ⟨_, rfl, congrArg Item.rule hr⟩
  | start h => exact accepts_startItem h hrest.pattern.2.1 (accepts_startPattern h hrest)
  | startEnded h hstop =>
    rw [List.append_assoc]
    refine accepts_startItem h ?_ (accepts_endedStart h hstop)
    obtain rfl | rfl := hstop <;> simp [labelers, Mark.kind]

theorem accepts_noItem_brace :
    Accepts top item? ⟨d, .symbol .rightBrace :: rest⟩ ⟨d, .symbol .rightBrace :: rest⟩
      fun o => o = none := by
  refine accepts_at.bind ?_
  rintro _ rfl
  exact .pure rfl

/-- A rule in front of the first separator is accepted. -/
theorem acceptsOne_rule (h : SpellsEntry n x) (hx : x.rule?.isSome) :
    AcceptsOne n nextRule ⟨0, x.marks ++ rest⟩ ⟨0, rest⟩
      fun r => (Item.rule r).bare = x.item.bare := by
  constructor
  · obtain ⟨m, ws, hmarks, -⟩ := spellsEntry_front h
    simp only [hmarks, List.length_append, List.length_cons]
    omega
  cases h with
  | rule h =>
    refine accepts_startsRule.bind ?_
    rintro _ rfl
    simp only [List.cons_append, List.append_assoc, List.nil_append]
    exact accepts_some ((accepts_rule h).weaken fun r hr => congrArg Item.rule hr)
  | separator | start | startEnded => cases hx

/-- No rule follows in front of the dashes of a separator and of the closing brace. -/
theorem accepts_noRule_front {v : View} (h : frontKind v.marks ≠ some .identifier) :
    Accepts top nextRule v v fun o => o = none := by
  refine accepts_startsRule.bind ?_
  rintro _ rfl
  rw [beq_eq_false_iff_ne.2 h]
  exact .pure rfl

/-- What follows an entry in a source. -/
theorem endsEntry_of_parted {entries : List Entry}
    (hentries : ∀ y ∈ entries, SpellsEntry n y) (h : Parted (x :: entries)) :
    EndsEntry x.action (entries.flatMap Entry.marks ++ [.symbol .rightBrace]) := by
  cases entries with
  | nil => exact ⟨_, [], rfl, .inl rfl, fun _ => ⟨nofun, nofun⟩⟩
  | cons y entries =>
    obtain ⟨m, ws, hmarks, hm⟩ := spellsEntry_front (hentries y List.mem_cons_self)
    obtain ⟨hxy, -⟩ := List.isChain_cons_cons.1 h
    rw [hmarks] at hxy
    rw [List.flatMap_cons, hmarks]
    refine ⟨m, _, rfl, .inr (hm.imp_left And.right), fun haction => ?_⟩
    exact (hxy haction).imp (fun hne heq => hne (congrArg some heq))
      fun hne heq => hne (congrArg some heq)

theorem acceptsMany_items {entries : List Entry} (h : ∀ y ∈ entries, SpellsEntry n y)
    (hparted : Parted entries) :
    AcceptsMany n item? ⟨0, entries.flatMap Entry.marks ++ [.symbol .rightBrace]⟩
      ⟨0, [.symbol .rightBrace]⟩
      fun xs => xs.map Item.bare = entries.map (Item.bare ∘ Entry.item) := by
  induction entries with
  | nil => exact .stop accepts_noItem_brace rfl
  | cons x entries ih =>
    obtain ⟨hx, hentries⟩ := List.forall_mem_cons.1 h
    rw [List.flatMap_cons, List.append_assoc]
    refine .more (acceptsOne_item hx (endsEntry_of_parted hentries hparted)) fun y hy => ?_
    refine (ih hentries (List.IsChain.tail hparted)).weaken fun ys hys => ?_
    rw [List.map_cons, List.map_cons, hys, hy]
    rfl

theorem acceptsMany_rules {entries : List Entry} (h : ∀ y ∈ entries, SpellsEntry n y)
    (hrules : ∀ y ∈ entries, y.rule?.isSome) (hrest : frontKind rest ≠ some .identifier) :
    AcceptsMany n nextRule ⟨0, entries.flatMap Entry.marks ++ rest⟩ ⟨0, rest⟩ fun rs =>
      (rs.map Item.rule).map Item.bare = entries.map (Item.bare ∘ Entry.item) := by
  induction entries with
  | nil => exact .stop (accepts_noRule_front hrest) rfl
  | cons x entries ih =>
    obtain ⟨hx, hentries⟩ := List.forall_mem_cons.1 h
    obtain ⟨hrule, hrules⟩ := List.forall_mem_cons.1 hrules
    rw [List.flatMap_cons, List.append_assoc]
    refine .more (acceptsOne_rule hx hrule) fun r hr => ?_
    refine (ih hentries hrules).weaken fun rs hrs => ?_
    rw [List.map_cons, List.map_cons, List.map_cons, hrs, hr]
    rfl

def definesRule (x : Entry) : Bool := x.rule?.isSome

/-- The entries of a source are rules up to the first separator. -/
theorem lays_split {file : File} {entries : List Entry} (h : Lays n file entries) :
    ∃ rules items, entries = rules ++ items ∧ (∀ y ∈ rules, y.rule?.isSome) ∧
      (items = [] ∨ ∃ y ys, items = y :: ys ∧ y.separator?.isSome) := by
  have hrules : ∀ y ∈ entries.takeWhile definesRule, y.rule?.isSome := by
    intro y hy
    have hdefines : definesRule y = true := List.mem_takeWhile_imp hy
    exact hdefines
  have hsplit : entries.takeWhile definesRule ++ entries.dropWhile definesRule = entries :=
    List.takeWhile_append_dropWhile
  have hhead := List.head?_dropWhile_not definesRule entries
  refine ⟨_, _, hsplit.symm, hrules, ?_⟩
  cases hdrop : entries.dropWhile definesRule with
  | nil => exact .inl rfl
  | cons y ys =>
    rw [hdrop] at hhead hsplit
    refine .inr ⟨y, ys, rfl, ?_⟩
    obtain ⟨item, ws, action⟩ := y
    cases item with
    | separator => rfl
    | rule => cases hhead
    | start =>
      obtain ⟨z, hz, hseparator⟩ := h.separated _ _ _ hsplit.symm rfl
      rw [separator_of_rule (hrules z hz)] at hseparator
      cases hseparator

section
variable {file : File} {rules items entries : List Entry} {rs : List Rule} {xs : List Item}

/-- Parts of items are the same but for their places if the items are. -/
theorem map_filterMap_bare {β : Type} {part : Item → Option β} {bare : β → β}
    (hpart : ∀ i : Item, part i.bare = (part i).map bare)
    (hxs : xs.map Item.bare = entries.map (Item.bare ∘ Entry.item)) :
    (xs.filterMap part).map bare = (entries.filterMap (part ∘ Entry.item)).map bare := by
  have hbare : ∀ is : List Item,
      (is.filterMap part).map bare = (is.map Item.bare).filterMap part := by
    intro is
    rw [List.map_filterMap, List.filterMap_map]
    exact List.filterMap_congr fun i _ => (hpart i).symm
  rw [hbare, hxs, ← List.map_map, ← hbare, List.filterMap_map]

/-- The source of the rules and the items that were read. -/
theorem bare_file (h : Lays n file entries) (hentries : entries = rules ++ items)
    (hrs : (rs.map Item.rule).map Item.bare = rules.map (Item.bare ∘ Entry.item))
    (hxs : xs.map Item.bare = items.map (Item.bare ∘ Entry.item)) (close : Span) :
    (File.mk (rs ++ xs.filterMap Item.rule?) (xs.filterMap Item.separator?)
      (xs.filterMap Item.start?) close).bare = file.bare := by
  have hall : (rs.map Item.rule ++ xs).map Item.bare = entries.map (Item.bare ∘ Entry.item) := by
    rw [List.map_append, hrs, hxs, hentries, List.map_append]
  have hrule : rs ++ xs.filterMap Item.rule? = (rs.map Item.rule ++ xs).filterMap Item.rule? := by
    rw [List.filterMap_append, List.filterMap_map]
    exact congrArg (· ++ _) List.filterMap_some.symm
  have hnone : ∀ {β : Type} {part : Item → Option β}, (∀ r, part (.rule r) = none) →
      xs.filterMap part = (rs.map Item.rule ++ xs).filterMap part := by
    intro β part hpart
    have hnil : rs.filterMap (part ∘ Item.rule) = [] :=
      List.filterMap_eq_nil_iff.2 fun r _ => hpart r
    rw [List.filterMap_append, List.filterMap_map, hnil, List.nil_append]
  rw [File.bare, File.bare, h.rules, h.separators, h.starts]
  dsimp only
  rw [hrule, hnone fun _ => rfl, hnone fun _ => rfl,
    map_filterMap_bare (fun i => by cases i <;> rfl) hall,
    map_filterMap_bare (fun i => by cases i <;> rfl) hall,
    map_filterMap_bare (fun i => by cases i <;> rfl) hall]
  rfl

/-- A source is accepted, and no mark is left. -/
theorem file_accepted (h : Lays n file entries) (hparted : Parted entries) :
    Accepts n Parser.file ⟨0, sourceMarks entries⟩ ⟨0, []⟩ fun x => x.bare = file.bare := by
  obtain ⟨rules, items, hentries, hrules, hitems⟩ := lays_split h
  have hspelled := List.forall_mem_append.1 (hentries ▸ h.spelled)
  have hsplit : sourceMarks entries = .keyword .grammar :: .symbol .leftBrace ::
      (rules.flatMap Entry.marks ++ (items.flatMap Entry.marks ++ [.symbol .rightBrace])) := by
    rw [sourceMarks, hentries, List.flatMap_append, List.append_assoc]
  have hfront : frontKind (items.flatMap Entry.marks ++ [.symbol .rightBrace]) ≠
      some .identifier := by
    obtain rfl | ⟨y, ys, rfl, hy⟩ := hitems
    · simp [Mark.kind]
    · cases hspelled.2 y List.mem_cons_self with
      | separator => simp [Mark.kind]
      | rule | start | startEnded => cases hy
  rw [hsplit]
  refine (accepts_expect rfl).bind fun _ _ => (accepts_expect rfl).bind fun _ _ => ?_
  refine (accepts_many (acceptsMany_rules hspelled.1 hrules hfront)).bind fun rs hrs => ?_
  have hend : ∀ xs : List Item, xs.map Item.bare = items.map (Item.bare ∘ Entry.item) →
      Accepts n (do
        let close ← expect (.symbol .rightBrace)
        if (← peek).isSome then unexpected .endOfInput
        else
          return {
            rules := rs ++ xs.filterMap Item.rule?
            separators := xs.filterMap Item.separator?
            starts := xs.filterMap Item.start?
            close := close.span }) ⟨0, [.symbol .rightBrace]⟩ ⟨0, []⟩
        fun x : File => x.bare = file.bare := by
    intro xs hxs
    refine (accepts_expect rfl).bind fun close _ => accepts_peek.bind ?_
    rintro _ rfl
    exact .pure (bare_file h hentries hrs hxs close.span)
  refine accepts_at.bind ?_
  rintro _ rfl
  refine accepts_at.bind ?_
  rintro _ rfl
  obtain rfl | ⟨y, ys, rfl, hy⟩ := hitems
  · exact .pure_bind (hend [] rfl)
  · have hchain : Parted (y :: ys) :=
      List.IsChain.suffix (hentries ▸ hparted) (List.suffix_append rules _)
    have hmany := accepts_many (acceptsMany_items hspelled.2 hchain)
    cases hspelled.2 y List.mem_cons_self with
    | separator => exact hmany.bind hend
    | rule | start | startEnded => cases hy

end

end Parser

/-- A source that is spelled as some entries is parsed as these, but for the places in them, unless
the spelling asks for more levels than there are. -/
theorem parseFile_of_spelled {source : List Char} {n : Nat} {file : File} {entries : List Entry}
    (h : Lays n file entries) (hparted : Parted entries)
    (hmarks : (Token.lex source).map Token.mark = sourceMarks entries) :
    (∃ file', parseFile source = .ok file' ∧ file'.bare = file.bare) ∨
      (nestingLimit < n ∧ ∃ span, parseFile source = .error ⟨span, .nestingTooDeep⟩) := by
  have hview : (Cursor.start (Token.lex source) (Text.byteLength source)).view =
      ⟨0, sourceMarks entries⟩ := congrArg (View.mk 0) hmarks
  obtain ⟨hn, span, hfault⟩ | ⟨file', d, hyields, -, hbare⟩ :=
    Parser.file_accepted h hparted _ hview
  · exact .inr ⟨hn, span, parseFile_of_faults hfault⟩
  · exact .inl ⟨file', parseFile_of_yields hyields, hbare⟩

end TextGrammar.Source
