import TextGrammar.Proofs.Spans.Layout

/-! # The tokens of constructs

The tokens of a construct fill the pieces of a layout one after the other, and its span goes from
the start of the first of them to the end of the last one. In tokens that follow one another, the
children of a construct follow one another too, within its span. -/

namespace TextGrammar.Source

/-- Tokens follow one another, and each of them covers something. -/
structure Ordered (ts : List Token) : Prop where
  apart : ts.Pairwise fun t u => t.span.stop ≤ u.span.start
  substantial : ∀ t ∈ ts, t.span.start < t.span.stop

/-- A span goes from the start of the first of some tokens to the end of the last one. -/
structure Covers (s : Span) (ts : List Token) : Prop where
  start : ts.head?.map (·.span.start) = some s.start
  stop : ts.getLast?.map (·.span.stop) = some s.stop

mutual

/-- The tokens of a construct fill a layout of it, and are what its span covers. -/
inductive Occupies : Construct → List Token → Prop
  | mk {x ps ts} (layout : Layout x ps) (fills : Fills ps ts) (covers : Covers x.span ts) :
    Occupies x ts

/-- Pieces are filled by tokens one after the other. -/
inductive Fills : List Piece → List Token → Prop
  | nil : Fills [] []
  | sign {t ps ts} (h : Fills ps ts) : Fills (.sign t.mark :: ps) (t :: ts)
  | part {x ps us ts} (hx : Occupies x us) (h : Fills ps ts) : Fills (.part x :: ps) (us ++ ts)

end

section
variable {s s' : Span} {ts us vs : List Token}

theorem Ordered.mono (h : Ordered ts) (hsub : us.Sublist ts) : Ordered us :=
  ⟨h.apart.sublist hsub, fun t ht => h.substantial t (hsub.subset ht)⟩

theorem Covers.exists_cons (h : Covers s ts) :
    ∃ t rest, ts = t :: rest ∧ t.span.start = s.start := by
  cases ts with
  | nil => cases h.start
  | cons t rest => exact ⟨t, rest, rfl, Option.some.inj h.start⟩

theorem Covers.exists_concat (h : Covers s ts) :
    ∃ front t, ts = front ++ [t] ∧ t.span.stop = s.stop := by
  obtain ⟨t, hlast, hstop⟩ := Option.map_eq_some_iff.1 h.stop
  obtain ⟨front, rfl⟩ := List.getLast?_eq_some_iff.1 hlast
  exact ⟨front, t, rfl, hstop⟩

theorem Covers.ne_nil (h : Covers s ts) : ts ≠ [] := by
  rintro rfl
  cases h.start

theorem Covers.singleton (t : Token) : Covers t.span [t] := ⟨rfl, rfl⟩

theorem Covers.span_eq {t : Token} (h : Covers s [t]) : t.span = s :=
  congrArg₂ Span.mk (Option.some.inj h.start) (Option.some.inj h.stop)

/-- The tokens that a span covers stand within it. -/
theorem Covers.bounds (h : Covers s ts) (hordered : Ordered ts) :
    ∀ t ∈ ts, s.start ≤ t.span.start ∧ t.span.stop ≤ s.stop := by
  intro t ht
  constructor
  · obtain ⟨first, rest, rfl, hstart⟩ := h.exists_cons
    rcases List.mem_cons.1 ht with rfl | ht
    · exact Nat.le_of_eq hstart.symm
    · have hfirst := hordered.substantial first List.mem_cons_self
      have hapart := (List.pairwise_cons.1 hordered.apart).1 t ht
      omega
  · obtain ⟨front, last, rfl, hstop⟩ := h.exists_concat
    rcases List.mem_append.1 ht with ht | ht
    · have hlast := hordered.substantial last (by simp)
      have hapart := (List.pairwise_append.1 hordered.apart).2.2 t ht last (by simp)
      omega
    · rw [List.mem_singleton.1 ht]
      exact Nat.le_of_eq hstop

/-- Of some tokens that a span covers, a part has a span within it. -/
theorem Covers.within (h : Covers s ts) (hordered : Ordered ts) (h' : Covers s' us)
    (hus : us <:+: ts) : s.start ≤ s'.start ∧ s'.stop ≤ s.stop := by
  obtain ⟨first, rest, hcons, hstart⟩ := h'.exists_cons
  obtain ⟨front, last, hconcat, hstop⟩ := h'.exists_concat
  have hfirst := h.bounds hordered first (hus.subset (by simp [hcons]))
  have hlast := h.bounds hordered last (hus.subset (by simp [hconcat]))
  omega

/-- The span of the front and the span of the back of some tokens cover all of them together. -/
theorem Covers.join (hordered : Ordered ts) (h : Covers s us) (h' : Covers s' vs)
    (hus : us <+: ts) (hvs : vs <:+ ts) : Covers (s.join s') ts := by
  have hne : ts ≠ [] := by
    rintro rfl
    exact h.ne_nil (List.prefix_nil.1 hus)
  have hstart : ts.head?.map (·.span.start) = some s.start := by
    obtain ⟨first, rest, rfl, hfirst⟩ := h.exists_cons
    obtain ⟨back, rfl⟩ := hus
    exact congrArg some hfirst
  have hstop : ts.getLast?.map (·.span.stop) = some s'.stop := by
    obtain ⟨front, last, rfl, hlast⟩ := h'.exists_concat
    obtain ⟨more, rfl⟩ := hvs
    simp [hlast]
  have hall : Covers ⟨s.start, s'.stop⟩ ts := ⟨hstart, hstop⟩
  have hfront := hall.within hordered h hus.isInfix
  have hback := hall.within hordered h' hvs.isInfix
  have heq : s.join s' = ⟨s.start, s'.stop⟩ := by
    rw [Span.join, Nat.min_eq_left hback.1, Nat.max_eq_right hfront.2]
  rwa [heq]

/-- A span ends before the next one starts. -/
theorem Covers.apart (hordered : Ordered (ts ++ us)) (h : Covers s ts) (h' : Covers s' vs)
    (hvs : vs <:+: us) : s.stop ≤ s'.start := by
  obtain ⟨front, last, rfl, hlast⟩ := h.exists_concat
  obtain ⟨first, rest, rfl, hfirst⟩ := h'.exists_cons
  have hle := (List.pairwise_append.1 hordered.apart).2.2 last (by simp) first
    (hvs.subset List.mem_cons_self)
  omega

end

theorem Occupies.covers {x : Construct} {ts : List Token} (h : Occupies x ts) :
    Covers x.span ts := by
  cases h
  assumption

namespace Fills
variable {x y : Construct} {ps qs : List Piece} {ts us : List Token}

theorem single {t : Token} : Fills [.sign t.mark] [t] := .sign .nil

theorem append (h : Fills ps ts) (h' : Fills qs us) : Fills (ps ++ qs) (ts ++ us) := by
  induction ps generalizing ts with
  | nil =>
    cases h
    exact h'
  | cons p ps ih =>
    cases h with
    | sign h => exact .sign (ih h)
    | part hx h =>
      rw [List.append_assoc]
      exact .part hx (ih h)

theorem of_occupies (h : Occupies x ts) : Fills [.part x] ts := by
  rw [← List.append_nil ts]
  exact .part h .nil

theorem split (ps : List Piece) {qs : List Piece} (h : Fills (ps ++ qs) ts) :
    ∃ us vs, ts = us ++ vs ∧ Fills ps us ∧ Fills qs vs := by
  induction ps generalizing ts with
  | nil => exact ⟨[], ts, rfl, .nil, h⟩
  | cons p ps ih =>
    cases h with
    | sign h =>
      obtain ⟨us, vs, rfl, hus, hvs⟩ := ih h
      exact ⟨_, vs, rfl, .sign hus, hvs⟩
    | part hx h =>
      obtain ⟨us, vs, rfl, hus, hvs⟩ := ih h
      exact ⟨_, vs, (List.append_assoc _ _ _).symm, .part hx hus, hvs⟩

theorem occupies (h : Fills [.part x] ts) : Occupies x ts := by
  cases h with
  | part hx h =>
    cases h
    rwa [List.append_nil]

/-- The first part covers a front of the tokens, and the last part covers a back of them. -/
theorem covers_first (h : Fills (.part x :: ps) ts) : ∃ us, us <+: ts ∧ Covers x.span us := by
  cases h with
  | part hx h => exact ⟨_, List.prefix_append _ _, hx.covers⟩

theorem covers_last (h : Fills (ps ++ [.part x]) ts) : ∃ us, us <:+ ts ∧ Covers x.span us := by
  obtain ⟨front, us, rfl, -, hus⟩ := split _ h
  exact ⟨us, List.suffix_append _ _, hus.occupies.covers⟩

/-- Every part has tokens of its own among the ones that fill the pieces. -/
theorem exists_occupies (h : Fills ps ts) (hx : .part x ∈ ps) :
    ∃ us, us <:+: ts ∧ Occupies x us := by
  obtain ⟨front, back, rfl⟩ := List.append_of_mem hx
  obtain ⟨us, vs, rfl, -, hvs⟩ := split _ h
  cases hvs with
  | @part _ _ ws rest hx _ => exact ⟨ws, ⟨us, rest, by rw [List.append_assoc]⟩, hx⟩

/-- Parts follow one another as their tokens do. -/
theorem pairwise_parts (h : Fills ps ts) (hordered : Ordered ts) :
    (parts ps).Pairwise fun y z => y.span.stop ≤ z.span.start := by
  induction ps generalizing ts with
  | nil => exact .nil
  | cons p ps ih =>
    cases h with
    | sign h => exact ih h (hordered.mono (List.sublist_cons_self _ _))
    | @part y _ us vs hy h =>
      refine .cons (fun z hz => ?_) (ih h (hordered.mono (List.sublist_append_right _ _)))
      obtain ⟨ws, hws, hz⟩ := h.exists_occupies (mem_parts.1 hz)
      exact hy.covers.apart hordered hz.covers hws

end Fills

namespace Occupies
variable {x : Construct} {ts : List Token}

/-- A child has tokens of its own among the tokens of a construct. -/
theorem exists_child (h : Occupies x ts) {y : Construct} (hy : y ∈ x.children) :
    ∃ us, us <:+: ts ∧ Occupies y us := by
  cases h with
  | mk layout fills covers =>
    rw [← layout.parts_eq] at hy
    exact fills.exists_occupies (mem_parts.1 hy)

/-- The children of a construct follow one another. -/
theorem pairwise_children (h : Occupies x ts) (hordered : Ordered ts) :
    x.children.Pairwise fun y z => y.span.stop ≤ z.span.start := by
  cases h with
  | mk layout fills covers =>
    rw [← layout.parts_eq]
    exact fills.pairwise_parts hordered

end Occupies

end TextGrammar.Source
