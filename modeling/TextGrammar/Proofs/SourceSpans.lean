import TextGrammar.Proofs.SourceTokens
import TextGrammar.Proofs.Spans.Faults
import TextGrammar.Proofs.Spans.Sources

/-! # Spans of a parsed source

All tokens of a source that is parsed are laid out as its tree. Every pattern, expression and
statement of the tree has the span of its tokens, within which the spans of its children follow one
another, and a name has the span of the word that it is. A source that is refused is refused at a
place in it. -/

namespace TextGrammar

theorem Token.ordered_lex (source : List Char) : Source.Ordered (Token.lex source) where
  apart := (Token.lex_tokenized source).pairwise
  substantial t ht := by
    obtain ⟨front, back, hstands⟩ := Token.exists_standsBehind_of_mem_lex ht
    exact hstands.start_lt_stop

/-- The mark of a name is that of an identifier. -/
theorem Token.mark_eq_name {t : Token} {text : String} (h : t.mark = .name text) :
    t.kind = .identifier ∧ t.text = text.toList := by
  unfold Token.mark at h
  split at h
  · cases h
    exact ⟨‹_›, String.toList_ofList.symm⟩
  · split at h <;> cases h
  · cases h
  · cases h

/-- The mark of a text is that of a string literal that stands for it. -/
theorem Token.mark_eq_string {t : Token} {text : String} (h : t.mark = .string text) :
    t.kind = .string ∧ Literal.decode t.text = .ok text.toList := by
  unfold Token.mark at h
  split at h
  · cases h
  · split at h
    · rename_i hdecode
      cases h
      exact ⟨‹_›, by rw [hdecode, String.toList_ofList]⟩
    · cases h
  · cases h
  · cases h

namespace Source

/-- The constructs of a source tree: the names and the patterns of its rules, its start patterns,
and all children of these. -/
inductive File.Has (file : File) : Construct → Prop
  | ruleName {r : Rule} (hr : r ∈ file.rules) : file.Has (.name r.name)
  | ruleBody {r : Rule} (hr : r ∈ file.rules) : file.Has (.pattern r.body)
  | start {p : Pattern} (hp : p ∈ file.starts) : file.Has (.pattern p)
  | child {x y : Construct} (hx : file.Has x) (hy : y ∈ x.children) : file.Has y

/-- What is known of the span of a construct in a source. -/
structure Spanned (source : List Char) (x : Construct) : Prop where
  /-- It goes from the start of the first token of the construct to the end of the last one. -/
  tokens : ∃ ts, ts <:+: Token.lex source ∧ Occupies x ts ∧ Covers x.span ts
  substantial : x.span.start < x.span.stop
  children_inside : ∀ y ∈ x.children, x.span.start ≤ y.span.start ∧ y.span.stop ≤ x.span.stop
  children_ordered : x.children.Pairwise fun y z => y.span.stop ≤ z.span.start
  name : ∀ n, x = .name n → ∃ t ∈ Token.lex source, t.kind = .identifier ∧ t.span = n.span ∧
    Text.slice? n.span.start n.span.stop source = some n.text.toList
  /-- The span of an override name is that of the whole string literal. -/
  newName : ∀ n, x = .newName n → ∃ t ∈ Token.lex source, t.kind = .string ∧ t.span = n.span ∧
    Text.slice? n.span.start n.span.stop source = some t.text ∧
    Literal.decode t.text = .ok n.text.toList

section
variable {source : List Char} {file : File} {ps : List Piece} {x : Construct}

/-- The name and the pattern of a rule are pieces of its source. -/
theorem LaidFile.of_rule (h : LaidFile file ps) {r : Rule} (hr : r ∈ file.rules) :
    .part (.name r.name) ∈ ps ∧ .part (.pattern r.body) ∈ ps := by
  cases h with
  | @mk entries laid rules starts =>
    rw [rules] at hr
    obtain ⟨⟨item, qs⟩, hmem, hitem⟩ := List.mem_filterMap.1 hr
    have hsub : ∀ q ∈ qs, q ∈ entries.flatMap (·.2) :=
      fun q hq => List.mem_flatMap.2 ⟨_, hmem, hq⟩
    cases laid _ hmem <;> cases hitem
    exact ⟨by simp [hsub], by simp [hsub]⟩

theorem LaidFile.of_start (h : LaidFile file ps) {p : Pattern} (hp : p ∈ file.starts) :
    .part (.pattern p) ∈ ps := by
  cases h with
  | @mk entries laid rules starts =>
    rw [starts] at hp
    obtain ⟨⟨item, qs⟩, hmem, hitem⟩ := List.mem_filterMap.1 hp
    have hsub : ∀ q ∈ qs, q ∈ entries.flatMap (·.2) :=
      fun q hq => List.mem_flatMap.2 ⟨_, hmem, hq⟩
    cases laid _ hmem <;> cases hitem <;> simp [hsub]

/-- Every construct of a tree has tokens of the source. -/
theorem File.Has.occupies (hx : file.Has x) (h : LaidFile file ps)
    (hfills : Fills ps (Token.lex source)) : ∃ ts, ts <:+: Token.lex source ∧ Occupies x ts := by
  induction hx with
  | ruleName hr => exact hfills.exists_occupies (h.of_rule hr).1
  | ruleBody hr => exact hfills.exists_occupies (h.of_rule hr).2
  | start hp => exact hfills.exists_occupies (h.of_start hp)
  | child _ hy ih =>
    obtain ⟨ts, hts, hoccupies⟩ := ih
    obtain ⟨us, hus, hchild⟩ := hoccupies.exists_child hy
    exact ⟨us, hus.trans hts, hchild⟩

/-- A construct with a single token has the span of it. -/
theorem Fills.token {m : Mark} {ts : List Token} (hfills : Fills [.sign m] ts)
    (hcovers : Covers x.span ts) : ∃ t, ts = [t] ∧ t.mark = m ∧ t.span = x.span := by
  cases hfills with
  | @sign t _ _ hrest =>
    cases hrest
    exact ⟨t, rfl, rfl, hcovers.span_eq⟩

theorem File.Has.spanned (hx : file.Has x) (h : LaidFile file ps)
    (hfills : Fills ps (Token.lex source)) : Spanned source x := by
  obtain ⟨ts, hts, hoccupies⟩ := hx.occupies h hfills
  have hordered : Ordered ts := (Token.ordered_lex source).mono hts.sublist
  have hcovers := hoccupies.covers
  constructor
  case tokens => exact ⟨ts, hts, hoccupies, hcovers⟩
  case substantial =>
    obtain ⟨t, rest, rfl, hstart⟩ := hcovers.exists_cons
    have hlt := hordered.substantial t List.mem_cons_self
    have hbounds := hcovers.bounds hordered t List.mem_cons_self
    omega
  case children_inside =>
    intro y hy
    obtain ⟨us, hus, hchild⟩ := hoccupies.exists_child hy
    exact hcovers.within hordered hchild.covers hus
  case children_ordered => exact hoccupies.pairwise_children hordered
  case name =>
    rintro n rfl
    cases hoccupies with
    | mk layout fills _ =>
      cases layout
      obtain ⟨t, rfl, hmark, hspan⟩ := fills.token hcovers
      obtain ⟨hkind, htext⟩ := Token.mark_eq_name hmark
      have ht : t ∈ Token.lex source := hts.subset List.mem_cons_self
      obtain ⟨front, back, hstands⟩ := Token.exists_standsBehind_of_mem_lex ht
      refine ⟨t, ht, hkind, hspan, ?_⟩
      rw [← htext, ← hstands.slice, hspan]
      rfl
  case newName =>
    rintro n rfl
    cases hoccupies with
    | mk layout fills _ =>
      cases layout
      obtain ⟨t, rfl, hmark, hspan⟩ := fills.token hcovers
      obtain ⟨hkind, hdecode⟩ := Token.mark_eq_string hmark
      have ht : t ∈ Token.lex source := hts.subset List.mem_cons_self
      obtain ⟨front, back, hstands⟩ := Token.exists_standsBehind_of_mem_lex ht
      refine ⟨t, ht, hkind, hspan, ?_, hdecode⟩
      rw [← hstands.slice, hspan]
      rfl

end

/-- A source that is parsed is laid out as its tree, by all of its tokens. -/
theorem parseFile_laid {source : List Char} {file : File} (h : parseFile source = .ok file) :
    ∃ ps, LaidFile file ps ∧ Fills ps (Token.lex source) := by
  obtain ⟨d, hfile⟩ := parseWith_eq_ok.1 h
  obtain ⟨ps, hlaid, ⟨ts, hts, -, hfills⟩, hend⟩ := Parser.file_passed hfile
  have hall : Token.lex source = ts := by
    have hrest := hts.rest
    rwa [hend, List.append_nil] at hrest
  rw [← hall] at hfills
  exact ⟨ps, hlaid, hfills (Token.ordered_lex source)⟩

end Source

open Source

/-- The tokens of a source that is parsed are laid out as its tree. Each construct of the tree has
the span of its tokens, the parentheses around it included; the spans of its children are within
it, apart from one another and in the order of the source; and the span of a name cuts its word out
of the source, or the string literal that gives it. A source that is refused is refused at a span
within it, between characters. -/
theorem parsed_spans (source : List Char) :
    (∀ file, parseFile source = .ok file →
      (∃ ps, LaidFile file ps ∧ Fills ps (Token.lex source) ∧
        (parts ps).Pairwise fun x y => x.span.stop ≤ y.span.start) ∧
      ∀ x, file.Has x → Spanned source x) ∧
    ∀ fault, parseFile source = .error fault → OnBoundaries source fault.span := by
  refine ⟨fun file hfile => ?_, fun fault hfault => parseFile_fault hfault⟩
  obtain ⟨ps, hlaid, hfills⟩ := parseFile_laid hfile
  exact ⟨⟨ps, hlaid, hfills, hfills.pairwise_parts (Token.ordered_lex source)⟩,
    fun x hx => hx.spanned hlaid hfills⟩

def groupedSource : String := "meta \x7b a := [(b | !b): \"é\"]; b := str; --- a \x7d"

def escapedSource : String := "meta \x7b a := \"é\\z\"; --- a \x7d"

theorem parsed_spans_grouped :
    (∃ file, parseFile groupedSource.toList = .ok file ∧ ∃ x, file.Has x ∧ x.span = ⟨13, 27⟩ ∧
      x.children.map Construct.span = [⟨13, 21⟩, ⟨23, 27⟩] ∧ Spanned groupedSource.toList x) ∧
    ∃ fault, parseFile escapedSource.toList = .error fault ∧ fault.span = .point 16 ∧
      OnBoundaries escapedSource.toList fault.span := by
  obtain ⟨hspanned, -⟩ := parsed_spans groupedSource.toList
  obtain ⟨-, hconfined⟩ := parsed_spans escapedSource.toList
  have hgrouped : ((parseFile groupedSource.toList).toOption.any fun file =>
      file.rules.any fun r => (Construct.pattern r.body).children.any fun x => decide
        (x.span = ⟨13, 27⟩ ∧ x.children.map Construct.span = [⟨13, 21⟩, ⟨23, 27⟩])) = true := by
    decide +kernel
  have hescaped : Except.map (fun _ => ()) (parseFile escapedSource.toList) =
      .error ⟨.point 16, .literal (.unknownEscape 'z')⟩ := by
    decide +kernel
  constructor
  · cases hfile : parseFile groupedSource.toList with
    | error fault =>
      rw [hfile] at hgrouped
      cases hgrouped
    | ok file =>
      rw [hfile] at hgrouped
      obtain ⟨r, hr, hbody⟩ := List.any_eq_true.1 hgrouped
      obtain ⟨x, hx, hspans⟩ := List.any_eq_true.1 hbody
      obtain ⟨hspan, hchildren⟩ := of_decide_eq_true hspans
      have hhas : file.Has x := .child (.ruleBody hr) hx
      exact ⟨file, rfl, x, hhas, hspan, hchildren, (hspanned file hfile).2 x hhas⟩
  · cases hfault : parseFile escapedSource.toList with
    | ok file =>
      rw [hfault] at hescaped
      cases hescaped
    | error fault =>
      rw [hfault] at hescaped
      cases hescaped
      exact ⟨_, rfl, rfl, hconfined _ hfault⟩

end TextGrammar
