import TextGrammar.Proofs.Computation
import TextGrammar.Source.Parser

/-! # Steps of a parser

A step of a parser changes the cursor in one way, or finds its fault at the next token. -/

namespace TextGrammar.Source
variable {α : Type} {fault : Fault}

namespace Parser
variable {c d : Cursor} {kind : Token.Kind}

/-- An expected token is the next one, and is read. -/
theorem yields_expect {t : Token} :
    Yields (expect kind) c t d ↔
      t.kind = kind ∧ ∃ ts, c.rest = t :: ts ∧ d = { c with rest := ts, last := t.span } := by
  unfold Yields expect
  rw [StateT.run]
  obtain ⟨_ | ⟨first, ts⟩, last, stop, depth⟩ := c
  · constructor
    · nofun
    · rintro ⟨-, _, hrest, -⟩
      cases hrest
  · dsimp only
    split
    · rename_i hkind
      constructor
      · rintro ⟨⟩
        exact ⟨hkind, ts, rfl, rfl⟩
      · rintro ⟨-, _, ⟨⟩, rfl⟩
        rfl
    · rename_i hkind
      constructor
      · nofun
      · rintro ⟨rfl, _, ⟨⟩, -⟩
        exact absurd rfl hkind

theorem faults_expect (h : Faults (expect kind) c fault) : fault.span = c.here := by
  unfold Faults expect at h
  rw [StateT.run] at h
  obtain ⟨_ | ⟨first, ts⟩, last, stop, depth⟩ := c
  · cases h
    rfl
  · dsimp only at h
    split at h
    · cases h
    · cases h
      rfl

theorem yields_descend {u : Unit} :
    Yields descend c u d ↔ c.depth < nestingLimit ∧ d = { c with depth := c.depth + 1 } := by
  unfold Yields descend
  rw [StateT.run]
  split
  · rename_i hlt
    constructor
    · rintro ⟨⟩
      exact ⟨hlt, rfl⟩
    · rintro ⟨-, rfl⟩
      rfl
  · rename_i hlt
    constructor
    · nofun
    · rintro ⟨hlt', -⟩
      exact absurd hlt' hlt

theorem faults_descend (h : Faults descend c fault) : fault.span = c.here := by
  unfold Faults descend at h
  rw [StateT.run] at h
  split at h
  · cases h
  · cases h
    rfl

theorem yields_keepDepth {p : Parser α} {x : α} :
    Yields (keepDepth p) c x d ↔ ∃ e, Yields p c x e ∧ d = { e with depth := c.depth } := by
  constructor
  · intro h
    obtain ⟨start, e, hstart, h⟩ := yields_bind.1 h
    cases hstart
    obtain ⟨y, e, hy, h⟩ := yields_bind.1 h
    obtain ⟨u, f, hu, h⟩ := yields_bind.1 h
    obtain rfl := yields_modify.1 hu
    obtain ⟨rfl, rfl⟩ := yields_pure.1 h
    exact ⟨e, hy, rfl⟩
  · rintro ⟨e, he, rfl⟩
    exact yields_bind.2 ⟨c, c, rfl, yields_bind.2 ⟨x, e, he, rfl⟩⟩

theorem keepDepth_faults {p : Parser α} (h : Faults p c fault) : Faults (keepDepth p) c fault :=
  faults_bind.2 (.inr ⟨c, c, rfl, faults_bind.2 (.inl h)⟩)

theorem nested_faults {p : Parser α} (hc : c.depth < nestingLimit)
    (h : Faults p { c with depth := c.depth + 1 } fault) : Faults (nested p) c fault :=
  keepDepth_faults (faults_bind.2 (.inr ⟨(), _, if_pos hc, h⟩))

/-- Nothing is nested where the limit has been reached. -/
theorem nested_tooDeep {p : Parser α} (hc : ¬c.depth < nestingLimit) :
    Faults (nested p) c ⟨c.here, .nestingTooDeep⟩ :=
  keepDepth_faults (faults_bind.2 (.inl (if_neg hc)))

/-- An expression is refused if the atom in front of it is. -/
theorem comparison_faults {atom expr : Parser Expr} (h : Faults atom c fault) :
    Faults (comparison atom expr) c fault :=
  faults_bind.2 (.inl (keepDepth_faults (faults_bind.2 (.inl (keepDepth_faults (faults_bind.2
    (.inl (keepDepth_faults (faults_bind.2 (.inl h))))))))))

end Parser

section
variable {p : Parser α} {source : List Char}

theorem parseWith_eq_ok {x : α} :
    parseWith p source = .ok x ↔
      ∃ d, Yields p (.start (Token.lex source) (Text.byteLength source)) x d := by
  rw [parseWith, map_eq_ok]
  constructor
  · rintro ⟨⟨y, d⟩, h, rfl⟩
    exact ⟨d, h⟩
  · rintro ⟨d, h⟩
    exact ⟨(x, d), h, rfl⟩

theorem parseWith_eq_error :
    parseWith p source = .error fault ↔
      Faults p (.start (Token.lex source) (Text.byteLength source)) fault := by
  rw [parseWith, Faults]
  rcases p.run (.start (Token.lex source) (Text.byteLength source)) with found | result
  · constructor <;> rintro ⟨⟩ <;> rfl
  · constructor <;> nofun

end

end TextGrammar.Source
