import TextGrammar.Proofs.Syntax.AcceptingSources

/-! # The syntax of sources

The parser of sources is the grammar of sources: what it accepts is laid out as the entries that it
returns, token by token, and every source that is laid out as some entries is accepted with them.
Spellings are counted by the levels of nesting that they ask for, so that the nesting limit is the
only reason to reject one. -/

namespace TextGrammar
open Source (nestingLimit noSpan parseFile Lays Parted Mark sourceMarks Spells SpellsPattern)

/-- The parser builds the tree of its grammar and loses no token. The tokens of a source that it
accepts are a spelling of the rules, separators and start patterns that it returns, within the
nesting limit. Every spelling of some rules, separators and start patterns is parsed as these, but
for the places in them, unless it is nested too deep, which is found only of a spelling that asks
for more levels than the limit. -/
theorem parseFile_syntax (source : List Char) :
    (∀ file, parseFile source = .ok file → ∃ entries, Lays nestingLimit file entries ∧
      (Token.lex source).map Token.mark = sourceMarks entries) ∧
    ∀ n file entries, Lays n file entries → Parted entries →
      (Token.lex source).map Token.mark = sourceMarks entries →
      (∃ file', parseFile source = .ok file' ∧ file'.bare = file.bare) ∨
        (nestingLimit < n ∧ ∃ span, parseFile source = .error ⟨span, .nestingTooDeep⟩) :=
  ⟨fun _ => Source.parseFile_spelled, fun _ _ _ => Source.parseFile_of_spelled⟩

/-- A rule with operators of two tiers behind one another, and the start pattern. -/
def tieredSource : String :=
  "meta \x7b less := [n: int] => 7 - n - 2 * n; --- less \x7d"

/-- The tree of the rule: the product is its tighter part, and the differences are taken from the
left. -/
def tieredBody : Source.Expr :=
  .binary noSpan .sub (.binary noSpan .sub (.int noSpan 7) (.name noSpan "n"))
    (.binary noSpan .mul (.int noSpan 2) (.name noSpan "n"))

def tieredPattern : Source.Pattern :=
  .sequence noSpan [(some ⟨"n", noSpan⟩, .name noSpan "int")] (some tieredBody)

def tieredEntries : List Source.Entry :=
  [⟨.rule ⟨⟨"less", noSpan⟩, tieredPattern⟩,
      [.name "less", .symbol .define, .symbol .leftBracket, .name "n", .symbol .colon, .name "int",
        .symbol .rightBracket, .symbol .fatArrow, .number ['7'], .symbol .minus, .name "n",
        .symbol .minus, .number ['2'], .symbol .star, .name "n", .symbol .semicolon], false⟩,
    ⟨.separator noSpan, [.sign .dashes], false⟩,
    ⟨.start (.name noSpan "less"), [.name "less"], false⟩]

def tieredFile : Source.File where
  rules := [⟨⟨"less", noSpan⟩, tieredPattern⟩]
  separators := [noSpan]
  starts := [.name noSpan "less"]
  close := noSpan

theorem tieredBody_spells : Spells 4 (.expr tieredBody)
    [.number ['7'], .symbol .minus, .name "n", .symbol .minus, .number ['2'], .symbol .star,
      .name "n"] := by
  have hseven : Spells 4 (.atom (.int noSpan 7)) [.number ['7']] :=
    @Spells.number _ false ['7'] _ (.int rfl (by decide +kernel))
  have htwo : Spells 2 (.atom (.int noSpan 2)) [.number ['2']] :=
    @Spells.number _ false ['2'] _ (.int rfl (by decide +kernel))
  change Spells 4 _ (([.number ['7']] ++ .sign Operator.sub.kind :: [.name "n"]) ++
    .sign Operator.sub.kind :: ([.number ['2']] ++ .sign Operator.mul.kind :: [.name "n"]))
  exact .sumAlone (.sum (m := 2) (k := 1)
    (.sum (m := 3) (k := 0) (.productAlone (.operandAlone (.atomAlone hseven))) rfl
      (.operandAlone (.atomAlone .name)) rfl)
    rfl (.product (m := 1) (k := 0) (.operandAlone (.atomAlone htwo)) rfl (.atomAlone .name) rfl)
    rfl)

theorem tieredPattern_spells : SpellsPattern 5 (.choice tieredPattern) true
    [.symbol .leftBracket, .name "n", .symbol .colon, .name "int", .symbol .rightBracket,
      .symbol .fatArrow, .number ['7'], .symbol .minus, .name "n", .symbol .minus, .number ['2'],
      .symbol .star, .name "n"] := by
  have hfield : SpellsPattern 4 (.field (some ⟨"n", noSpan⟩, .name noSpan "int")) true
      [.name "n", .symbol .colon, .name "int"] :=
    .colon (.alone (.bare .name)) nofun
  have hitems : ∀ x ∈ [((some (⟨"n", noSpan⟩ : Source.Name), Source.Pattern.name noSpan "int") :
      Source.Field)].zip [[Mark.name "n", .symbol .colon, .name "int"]],
      SpellsPattern 4 (.field x.1) true x.2 := List.forall_mem_singleton.2 hfield
  exact .alone (.bare (.action rfl hitems .last tieredBody_spells))

theorem tieredEntries_lay : Lays 5 tieredFile tieredEntries where
  spelled := by
    have hrule : Source.SpellsEntry 5 ⟨.rule ⟨⟨"less", noSpan⟩, tieredPattern⟩, _, _⟩ :=
      .rule tieredPattern_spells
    exact List.forall_mem_cons.2 ⟨hrule, List.forall_mem_cons.2
      ⟨.separator, List.forall_mem_singleton.2 (.start (.alone (.bare .name)))⟩⟩
  rules := rfl
  separators := rfl
  starts := rfl
  separated := by
    rintro (_ | ⟨y, _ | ⟨z, front⟩⟩) x back h hx
    · obtain ⟨rfl, -⟩ := List.cons.inj h
      cases hx
    · obtain ⟨rfl, -⟩ := List.cons.inj (List.cons.inj h).2
      cases hx
    · obtain ⟨rfl, -⟩ := List.cons.inj (List.cons.inj h).2
      exact ⟨_, List.mem_cons_of_mem _ List.mem_cons_self, rfl⟩

theorem parseFile_syntax_tiered : ∃ file, parseFile tieredSource.toList = .ok file ∧
    file.bare = tieredFile ∧ ∃ entries, Lays nestingLimit file entries ∧
      (Token.lex tieredSource.toList).map Token.mark = sourceMarks entries := by
  obtain ⟨hsound, hcomplete⟩ := parseFile_syntax tieredSource.toList
  have hmarks : (Token.lex tieredSource.toList).map Token.mark = sourceMarks tieredEntries := by
    decide +kernel
  have hparted : Parted tieredEntries := by simp [Parted, tieredEntries]
  obtain ⟨file, hfile, hbare⟩ | ⟨hn, -⟩ := hcomplete 5 _ _ tieredEntries_lay hparted hmarks
  · exact ⟨file, hfile, hbare, hsound file hfile⟩
  · exact absurd hn (by decide)

end TextGrammar
