import TextGrammar.Proofs.Matching.Outcome
import TextGrammar.Proofs.Matching.Shape
import TextGrammar.Proofs.ParsingSemantics

/-! # Captures have the shape of their patterns

What a compiled grammar captures can be read off its patterns, wherever a run matches one. The
records among the captures have no two fields of one name, so their values have the same fields in
the same order. -/

namespace TextGrammar
open Matching (Reaches Leads Stage State matchWithin callWithin)

namespace Matching

def Stage.Apart : Stage → Prop
  | (.pattern _ p, _) | (.rounds _ p _, _) => p.Apart
  | (.fields _ rest _, _) => Pattern.FieldsApart rest
  | (.first _ alternatives, _) => Pattern.AllApart alternatives
  | (.call _ _, _) | (.evaluation _ _, _) => True

variable {g : Grammar} {limit : Nat}

theorem Leads.apart (hg : ∀ r ∈ g.rules, r.body.Apart) {a b : Stage} (h : Leads g limit a b)
    (ha : Stage.Apart a) : Stage.Apart b := by
  cases h with
  | body hr => exact hg _ (List.mem_of_getElem? hr)
  | sequence | action | nextField | nextAlternative => exact ha.2
  | field | alternative => exact ha.1
  | repetition | choice | negation | round | nextRound => exact ha
  | rule | evaluation => exact trivial

theorem Reaches.apart (hg : ∀ r ∈ g.rules, r.body.Apart) {a b : Stage} (h : Reaches g limit a b)
    (ha : Stage.Apart a) : Stage.Apart b :=
  h.keeps (I := Stage.Apart) (fun _ _ hab ha => hab.apart hg ha) ha

/-- A called rule captures what its body declares. -/
theorem callWithin_hasShape (hg : ∀ r ∈ g.rules, r.body.Apart) {levels index : Nat} {s t : State}
    {c : Capture} (h : Yields (callWithin g limit levels index) s (some c) t) :
    HasShape g (.rule index none) c :=
  ((callWithin_parses g limit levels index none []).1 h).fits hg rfl trivial

end Matching

namespace Capture

mutual

def verbatim : Capture → Value
  | .unit => .null
  | .text s => .str s
  | .float x => .float x
  | .int n => .int n
  | .list items => .list (verbatimItems items)
  | .record fields => .record (verbatimFields fields)
  | .value v => v

def verbatimItems : List Capture → List Value
  | [] => []
  | c :: cs => verbatim c :: verbatimItems cs

def verbatimFields : List (String × Capture) → List (String × Value)
  | [] => []
  | (name, c) :: rest => (name, verbatim c) :: verbatimFields rest

end

theorem names_verbatimFields (fields : List (String × Capture)) :
    Record.names (verbatimFields fields) = fields.map Prod.fst := by
  induction fields with
  | nil => rfl
  | cons field rest ih => exact congrArg (field.1 :: ·) ih

theorem toValues_eq_verbatim {items : List Capture}
    (h : ∀ c ∈ items, c.toValue = c.verbatim) : toValues items = verbatimItems items := by
  induction items with
  | nil => rfl
  | cons c cs ih =>
    obtain ⟨hc, hcs⟩ := List.forall_mem_cons.1 h
    rw [toValues, verbatimItems, hc, ih hcs]

end Capture

section
variable {g : Grammar}

mutual

/-- The value of a capture with a shape has all its fields in their places. -/
theorem HasShape.toValue_eq : ∀ {p : Pattern} {c : Capture}, HasShape g p c →
    c.toValue = c.verbatim
  | _, _, .line | _, _, .float | _, _, .integer | _, _, .literal | _, _, .negation
  | _, _, .action => rfl
  | _, _, @HasShape.sequence _ _ _ captured hfields hnames => by
    have hvalues := hfields.toFields_eq
    rw [← Capture.names_verbatimFields] at hnames
    rw [Capture.toValue, Capture.verbatim, hvalues, Record.ofList_of_nodup hnames]
  | _, _, .repetition hitems => by
    rw [Capture.toValue, Capture.verbatim,
      Capture.toValues_eq_verbatim fun c hc => (hitems c hc).toValue_eq]
  | _, _, .choice _ hc | _, _, .rule _ hc => hc.toValue_eq

theorem FieldsHaveShape.toFields_eq : ∀ {fields : List (Option Binding × Pattern)}
    {captured : List (String × Capture)}, FieldsHaveShape g fields captured →
      Capture.toFields captured = Capture.verbatimFields captured
  | _, _, .nil => rfl
  | _, _, .free hrest => hrest.toFields_eq
  | _, _, .bound hc hrest => by
    rw [Capture.toFields, Capture.verbatimFields, hc.toValue_eq, hrest.toFields_eq]

end

end

/-- Wherever a run of a compiled grammar matches a pattern, its capture has the shape that the
pattern declares, and the value of the capture has the captured fields of each record, all of them
and in their order. This holds of the capture that a matched rule gives, and the value of a run is
that of the capture of its start rule. -/
theorem compile_capture_shapes {source : String} {g : Grammar} (hg : compile source = .ok g) :
    (∀ (maxDepth index : Nat) (input : String) (levels : Nat) (p : Pattern) (s : State),
      Reaches g maxDepth (.call maxDepth index, .start input.toList g.start)
        (.pattern levels p, s) →
      ∀ c t, Matching.Yields (matchWithin g maxDepth levels p) s (some c) t →
        HasShape g p c ∧ c.toValue = c.verbatim) ∧
    (∀ index maxDepth input c taken, g.matchRule index maxDepth input = .ok (some (c, taken)) →
      HasShape g (.rule index none) c ∧ c.toValue = c.verbatim) ∧
    ∀ options input v, g.run options input = .ok v →
      ∃ index c, g.startFor options = .ok index ∧
        g.matchRule index options.maxDepth input = .ok (some (c, Text.byteLength input.toList)) ∧
        HasShape g (.rule index none) c ∧ v = c.verbatim := by
  obtain ⟨file, -, hcompiles⟩ := Compile.compile_eq_ok.1 hg
  have hapart := hcompiles.apart
  refine ⟨?_, ?_, ?_⟩
  · intro maxDepth index input levels p s hs c t h
    have hp : p.Apart := hs.apart hapart trivial
    have hbase := hs.base_le (Nat.zero_le _)
    have hparses := (Matching.matchWithin_conforms g maxDepth levels p).yields hbase h
    have hshape : HasShape g p c := hparses.fits hapart rfl hp
    exact ⟨hshape, hshape.toValue_eq⟩
  · intro index maxDepth input c taken h
    obtain ⟨s, hs, -⟩ := Grammar.matchRule_eq_ok.1 h
    have hshape := Matching.callWithin_hasShape hapart hs
    exact ⟨hshape, hshape.toValue_eq⟩
  · intro options input v h
    obtain ⟨index, c, s, hstart, hs, hrest, rfl⟩ := Grammar.run_eq_ok h
    have hshape := Matching.callWithin_hasShape hapart hs
    obtain ⟨taken, hinput, hplace⟩ :=
      (Matching.callWithin_atomic g _ _ index hs).1.ahead.eq_behind
    -- Nothing is left, so that the whole input has been taken.
    have hoffset : s.place.offset = Text.byteLength input.toList := by
      rw [hrest, List.append_nil] at hinput
      rw [hplace, ← hinput]
      exact Nat.zero_add _
    exact ⟨index, c, hstart, Grammar.matchRule_eq_ok.2 ⟨s, hs, hoffset⟩, hshape,
      hshape.toValue_eq⟩

def entrySource : String :=
  "meta \x7b word := \"a\" | \"b\"; entries := [all: repeat [n: i64, word]]; --- entries \x7d"

def entryText : String :=
  "\x7ball: [\x7bn: 1, word: \"a\"\x7d, \x7bn: 2, word: \"b\"\x7d]\x7d"

theorem compile_capture_shapes_entries : ∃ g, compile entrySource = .ok g ∧
    ∃ c, HasShape g (.rule g.start none) c ∧ c.verbatim.display = entryText := by
  have hcheck : (compile entrySource).toOption.any (fun g =>
      (g.run {} "1a2b").toOption.any fun v => v.display = entryText) = true := by
    decide +kernel
  obtain ⟨g, hg, hrun⟩ := Compile.exists_compile_eq_ok_of_any hcheck
  cases hvalue : g.run {} "1a2b" with
  | error e =>
    rw [hvalue] at hrun
    cases hrun
  | ok v =>
    rw [hvalue] at hrun
    obtain ⟨-, -, hall⟩ := compile_capture_shapes hg
    obtain ⟨index, c, hstart, -, hshape, rfl⟩ := hall _ _ _ hvalue
    cases hstart
    exact ⟨g, hg, c, hshape, of_decide_eq_true hrun⟩

end TextGrammar
