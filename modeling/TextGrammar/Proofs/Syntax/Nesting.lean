import TextGrammar.Proofs.Syntax.Spelling

/-! # How deep spelled trees are

A path in a source tree leads from a part to a part of it, and so on. A tree that is spelled with
some levels of nesting left has no long paths. The blocks of a path take a level each. So do the
operators and suffixes of a chain, but the levels of a chain are those of its right operands, and
its leftmost operand starts over with the levels of the chain. So a path has a bounded number of
chains for each level, and as many links in one as there are levels. -/

namespace TextGrammar.Source

/-- A part of a source tree. The left operand of an operator and what a suffix stands behind are
told from other expressions, because they are the links of chains, and the other branch of a
statement from other blocks, because an `else if` has no block in the source. -/
inductive Node where
  | pattern (p : Pattern)
  | expr (e : Expr)
  | base (e : Expr)
  | block (b : Block)
  | otherwise (b : Block)
  | stmt (s : Stmt)

/-- The parts of a pattern. -/
def Pattern.parts : Pattern → List Node
  | .sequence _ fields action => (fields.map fun f => .pattern f.2) ++ action.toList.map .expr
  | .repetition _ p | .negation _ p | .rename _ p _ => [.pattern p]
  | .choice _ ps => ps.map .pattern
  | .name .. | .literal .. => []

def Expr.parts : Expr → List Node
  | .index _ base position => [.base base, .expr position]
  | .field _ base _ => [.base base]
  | .call _ _ es | .list _ es => es.map .expr
  | .binary _ _ lhs rhs => [.base lhs, .expr rhs]
  | .record _ fields => fields.map fun f => .expr f.2
  | .block _ b => [.block b]
  | .int .. | .float .. | .str .. | .bool .. | .null _ | .name .. => []

def Block.parts : Block → List Node
  | .mk ss result => ss.map .stmt ++ result.toList.map .expr

def Stmt.parts : Stmt → List Node
  | .bind _ _ _ value | .assign _ _ _ value => [.expr value]
  | .loop _ _ start stop body => [.expr start, .expr stop, .block body]
  | .branch _ condition yes no => .expr condition :: .block yes :: no.toList.map .otherwise
  | .leave _ => []

def Expr.isChain : Expr → Bool
  | .index .. | .field .. | .binary .. => true
  | _ => false

namespace Node

def parts : Node → List Node
  | pattern p => p.parts
  | expr e | base e => e.parts
  | block b | otherwise b => b.parts
  | stmt s => s.parts

/-- Whether a part is a block: that of an expression, the body of a loop, or a branch. -/
def isBlock : Node → Bool
  | block _ | otherwise _ => true
  | _ => false

def isStmt : Node → Bool
  | stmt _ => true
  | _ => false

/-- Whether a part is the other branch of a statement and holds nothing but another branching
statement, as an `else if` does. -/
def isArm : Node → Bool
  | otherwise (.mk [.branch ..] none) => true
  | _ => false

def isLink : Node → Bool
  | base e => e.isChain
  | _ => false

/-- A path leads from a part down to one of its parts, to a part of that, and so on. -/
inductive Path : Node → List Node → Prop
  | stop (x : Node) : Path x [x]
  | step {x y : Node} {path : List Node} (h : y ∈ x.parts) (hpath : Path y path) :
    Path x (x :: path)

end Node

/-- What is counted on a path. -/
inductive Measure where
  | blocks
  | levels
  | parts

namespace Measure

/-- The parts that a measure counts: the blocks, everything that is neither a statement nor a link
of a chain, or everything but the statements. The block of an `else if` is not counted. -/
def counts : Measure → Node → Bool
  | blocks, x => x.isBlock && !x.isArm
  | levels, x => !x.isStmt && !x.isArm && !x.isLink
  | parts, x => !x.isStmt && !x.isArm

def node : Measure → Nat
  | blocks => 0
  | levels | parts => 1

def link : Measure → Nat
  | blocks | levels => 0
  | parts => 1

theorem link_le_node (μ : Measure) : μ.link ≤ μ.node := by cases μ <;> decide

/-- What some levels of nesting allow on a path: each one a block, or a comparison, a chain and an
atom with the links between them. There are chains of sums, of products and of suffixes, and none
has more links than there are levels. -/
def room (μ : Measure) : Nat → Nat
  | 0 => 0
  | n + 1 => μ.room n + max 1 (3 * μ.node + 3 * n * μ.link)

theorem room_mono (μ : Measure) {m n : Nat} (h : m ≤ n) : μ.room m ≤ μ.room n := by
  induction h with
  | refl => exact Nat.le_refl _
  | step _ ih => exact Nat.le_trans ih (Nat.le_add_right _ _)

end Measure

variable {μ : Measure}

namespace Node

/-- The paths from a part count no more than some patterns and expressions, some links of chains,
and what a number of levels allows below these. -/
def Fits (μ : Measure) (k l n : Nat) (x : Node) : Prop :=
  ∀ path, Path x path → path.countP μ.counts ≤ k * μ.node + l * μ.link + μ.room n

theorem Fits.mono {k l n k' l' n' : Nat} {x : Node} (h : x.Fits μ k l n) (hk : k ≤ k')
    (hl : l ≤ l') (hn : n ≤ n') : x.Fits μ k' l' n' := fun path hpath =>
  Nat.le_trans (h path hpath) (Nat.add_le_add
    (Nat.add_le_add (Nat.mul_le_mul_right _ hk) (Nat.mul_le_mul_right _ hl)) (μ.room_mono hn))

/-- A link counts no more than another expression. -/
theorem Fits.unlink {k l n : Nat} {x : Node} (h : x.Fits μ k (l + 1) n) :
    x.Fits μ (k + 1) l n := by
  intro path hpath
  have hcount := h path hpath
  have hlink := μ.link_le_node
  rw [Nat.succ_mul] at hcount ⊢
  omega

/-- A level has room for three expressions and the links of three chains. -/
theorem Fits.level {k l n : Nat} {x : Node} (h : x.Fits μ k l (n - 1)) (hn : 0 < n) (hk : k ≤ 3)
    (hl : l ≤ 3 * (n - 1)) : x.Fits μ 0 0 n := by
  obtain ⟨n, rfl⟩ := Nat.exists_eq_succ_of_ne_zero (Nat.ne_of_gt hn)
  intro path hpath
  calc path.countP μ.counts
    _ ≤ k * μ.node + l * μ.link + μ.room n := h path hpath
    _ ≤ 3 * μ.node + 3 * n * μ.link + μ.room n :=
      Nat.add_le_add_right
        (Nat.add_le_add (Nat.mul_le_mul_right _ hk) (Nat.mul_le_mul_right _ hl)) _
    _ ≤ 0 * μ.node + 0 * μ.link + μ.room (n + 1) := by
      rw [Measure.room]
      omega

/-- The same parts below another one fit as well, if it counts no more. -/
theorem Fits.of_parts {k l n : Nat} {x y : Node} (h : x.Fits μ k l n)
    (hparts : y.parts = x.parts) (hself : μ.counts y → μ.counts x) : y.Fits μ k l n := by
  intro path hpath
  cases hpath with
  | stop =>
    have hcount := h _ (.stop x)
    rw [List.countP_singleton] at hcount ⊢
    grind
  | step hz hrest =>
    have hcount := h _ (.step (hparts ▸ hz) hrest)
    rw [List.countP_cons] at hcount ⊢
    grind

/-- A part fits if there is room for itself beside its parts. -/
theorem fits_of_parts {k l n k' l' n' : Nat} {x : Node} (h : ∀ y ∈ x.parts, y.Fits μ k l n)
    (hself : k * μ.node + l * μ.link + μ.room n + (μ.counts x).toNat ≤
      k' * μ.node + l' * μ.link + μ.room n') : x.Fits μ k' l' n' := by
  intro path hpath
  cases hpath with
  | stop =>
    rw [List.countP_singleton]
    grind
  | step hy hrest =>
    have hcount := h _ hy _ hrest
    rw [List.countP_cons]
    grind

theorem fits_expr {k l n : Nat} {e : Expr} (h : ∀ y ∈ e.parts, y.Fits μ k l n) :
    (expr e).Fits μ (k + 1) l n := by
  have hself : (μ.counts (expr e)).toNat = μ.node := by cases μ <;> rfl
  refine fits_of_parts h ?_
  rw [hself, Nat.succ_mul]
  omega

theorem fits_pattern {k l n : Nat} {p : Pattern} (h : ∀ y ∈ p.parts, y.Fits μ k l n) :
    (pattern p).Fits μ (k + 1) l n := by
  have hself : (μ.counts (pattern p)).toNat = μ.node := by cases μ <;> rfl
  refine fits_of_parts h ?_
  rw [hself, Nat.succ_mul]
  omega

/-- A chain that goes on counts as one more link. -/
theorem fits_link {k l n : Nat} {e : Expr} (h : ∀ y ∈ e.parts, y.Fits μ k l n)
    (hchain : e.isChain) : (base e).Fits μ k (l + 1) n := by
  have hself : (μ.counts (base e)).toNat = μ.link := by
    cases μ <;> simp [Measure.counts, isBlock, isStmt, isArm, isLink, hchain, Measure.link]
  refine fits_of_parts h ?_
  rw [hself, Nat.succ_mul]
  omega

theorem Fits.base {k l n : Nat} {e : Expr} (h : (expr e).Fits μ k l n) :
    (Node.base e).Fits μ k l n :=
  h.of_parts rfl (by cases μ <;> simp [Measure.counts, isBlock, isStmt, isArm, isLink])

theorem fits_stmt {n : Nat} {s : Stmt} (h : ∀ y ∈ s.parts, y.Fits μ 0 0 n) :
    (stmt s).Fits μ 0 0 n := by
  have hself : μ.counts (stmt s) = false := by cases μ <;> rfl
  exact fits_of_parts h (by simp [hself])

theorem fits_branch {n : Nat} {span : Span} {condition : Expr} {yes : Block} {no : Option Block}
    (hcondition : (expr condition).Fits μ 0 0 n) (hyes : (block yes).Fits μ 0 0 n)
    (hno : ∀ b ∈ no.toList, (otherwise b).Fits μ 0 0 n) :
    (stmt (.branch span condition yes no)).Fits μ 0 0 n := by
  refine fits_stmt (List.forall_mem_cons.2 ⟨hcondition, List.forall_mem_cons.2 ⟨hyes, ?_⟩⟩)
  exact List.forall_mem_map.2 hno

theorem fits_block {n : Nat} {b : Block} (h : ∀ y ∈ b.parts, y.Fits μ 0 0 n) :
    (block b).Fits μ 0 0 (n + 1) := by
  refine fits_of_parts h ?_
  have hself := Bool.toNat_le (μ.counts (block b))
  rw [Measure.room]
  omega

/-- The other branch of a statement counts as a block at most. -/
theorem Fits.otherwise {n : Nat} {b : Block} (h : (block b).Fits μ 0 0 n) :
    (Node.otherwise b).Fits μ 0 0 n :=
  h.of_parts rfl (by cases μ <;> simp [Measure.counts, isBlock, isStmt, isArm, isLink])

/-- An `else if` counts nothing but its parts. -/
theorem Fits.arm {n : Nat} {span : Span} {condition : Expr} {yes : Block} {no : Option Block}
    (h : (stmt (.branch span condition yes no)).Fits μ 0 0 n) :
    (Node.otherwise (.mk [.branch span condition yes no] none)).Fits μ 0 0 n := by
  refine fits_of_parts (List.forall_mem_singleton.2 h) ?_
  cases μ <;> simp [Measure.counts, isArm]

theorem Fits.withSpan {k l n : Nat} {e : Expr} (h : (expr e).Fits μ k l n) (s : Span) :
    (expr (e.withSpan s)).Fits μ k l n :=
  h.of_parts (by cases e <;> rfl) (by cases μ <;> exact id)

theorem Fits.pattern_withSpan {k l n : Nat} {p : Pattern} (h : (pattern p).Fits μ k l n)
    (s : Span) : (pattern (p.withSpan s)).Fits μ k l n :=
  h.of_parts (by cases p <;> rfl) (by cases μ <;> exact id)

end Node

open Node (Fits fits_expr fits_pattern fits_link fits_stmt fits_branch fits_block)

/-- A chain with some links and with levels below them. The last link is counted as an expression
where the chain ends. -/
structure Expr.FitsChain (μ : Measure) (l n : Nat) (e : Expr) : Prop where
  link : (Node.base e).Fits μ 1 l n
  whole : (Node.expr e).Fits μ 2 (l - 1) n

theorem Expr.FitsChain.mono {l n l' n' : Nat} {e : Expr} (h : e.FitsChain μ l n) (hl : l ≤ l')
    (hn : n ≤ n') : e.FitsChain μ l' n' where
  link := h.link.mono (Nat.le_refl _) hl hn
  whole := h.whole.mono (Nat.le_refl _) (Nat.sub_le_sub_right hl 1) hn

/-- A chain goes on by one link. -/
theorem Expr.fitsChain_succ {l n : Nat} {e : Expr} (h : ∀ y ∈ e.parts, y.Fits μ 1 l n)
    (hchain : e.isChain) : e.FitsChain μ (l + 1) n where
  link := fits_link h hchain
  whole := fits_expr h

theorem Expr.fitsChain_binary {l n : Nat} {span : Span} {op : Operator} {lhs rhs : Expr}
    (hlhs : lhs.FitsChain μ l n) (hrhs : (Node.expr rhs).Fits μ 0 0 n) :
    (Expr.binary span op lhs rhs).FitsChain μ (l + 1) n :=
  Expr.fitsChain_succ (List.forall_mem_cons.2 ⟨hlhs.link,
    List.forall_mem_singleton.2 (hrhs.mono (Nat.zero_le _) (Nat.zero_le _) (Nat.le_refl _))⟩) rfl

/-- The chains of a level fit into it. -/
theorem Expr.FitsChain.level {l n : Nat} {e : Expr} (h : e.FitsChain μ l (n - 1)) (hn : 0 < n)
    (hl : l ≤ 3 * n - 2) : (Node.expr e).Fits μ 0 0 n :=
  h.whole.level hn (by omega) (by omega)

theorem forall_mem_of_zip {α β : Type} {P : α → Prop} {xs : List α} {ys : List β}
    (hlength : xs.length = ys.length) (h : ∀ x ∈ xs.zip ys, P x.1) : ∀ x ∈ xs, P x := by
  rw [← List.map_fst_zip (Nat.le_of_eq hlength), List.forall_mem_map]
  exact h

/-- The parts of an expression that is spelled with some levels left fit into these. Chains of
suffixes are the links of products, and these are the links of sums. -/
def Phrase.Fits (μ : Measure) (n : Nat) : Phrase → Prop
  | .expr e => (Node.expr e).Fits μ 0 0 n
  | .sum k e => k < n ∧ e.FitsChain μ (2 * n - 1 + k) (n - 1)
  | .product k e => k < n ∧ e.FitsChain μ (n + k) (n - 1)
  | .operand k e => k ≤ n ∧ 0 < n ∧ e.FitsChain μ k (n - 1)
  | .atom e => 0 < n ∧ (Node.expr e).Fits μ 1 0 (n - 1)
  | .entry f => (Node.expr f.2).Fits μ 0 0 n
  | .block b => (Node.block b).Fits μ 0 0 n
  | .stmts _ ss => ∀ s ∈ ss, (Node.stmt s).Fits μ 0 0 n
  | .stmt _ s => (Node.stmt s).Fits μ 0 0 n
  | .otherwise _ no => ∀ b ∈ no.toList, (Node.otherwise b).Fits μ 0 0 n

theorem Spells.fits {n : Nat} {phrase : Phrase} {ws : List Mark} (h : Spells n phrase ws) :
    phrase.Fits μ n := by
  induction h with
  | sumAlone _ ih =>
    obtain ⟨hk, hsum⟩ := ih
    exact hsum.level (by omega) (by omega)
  | @comparison n _ _ _ _ lhs rhs _ _ _ _ _ ihl ihr =>
    obtain ⟨hk, hlhs⟩ := ihl
    obtain ⟨hk', hrhs⟩ := ihr
    have hlhs : (Node.base lhs).Fits μ 2 (3 * n - 3) (n - 1) :=
      (hlhs.link.mono (Nat.le_refl _) (by omega) (Nat.le_refl _)).unlink
    have hrhs : (Node.expr rhs).Fits μ 2 (3 * n - 3) (n - 1) :=
      hrhs.whole.mono (Nat.le_refl _) (by omega) (Nat.le_refl _)
    refine Fits.level (k := 3) (l := 3 * n - 3) (fits_expr ?_) (by omega) (Nat.le_refl _)
      (by omega)
    exact List.forall_mem_cons.2 ⟨hlhs, List.forall_mem_singleton.2 hrhs⟩
  | productAlone _ ih =>
    obtain ⟨hk, hproduct⟩ := ih
    exact ⟨by omega, hproduct.mono (by omega) (Nat.le_refl _)⟩
  | sum _ _ _ hlevel ihl ihr =>
    obtain ⟨hk, hlhs⟩ := ihl
    obtain ⟨hk', hrhs⟩ := ihr
    refine ⟨by omega, Expr.fitsChain_binary hlhs ?_⟩
    exact (hrhs.level (by omega) (by omega)).mono (Nat.le_refl _) (Nat.le_refl _) (by omega)
  | operandAlone _ ih =>
    obtain ⟨hk, hn, hoperand⟩ := ih
    exact ⟨hn, hoperand.mono (by omega) (Nat.le_refl _)⟩
  | product _ _ _ hlevel ihl ihr =>
    obtain ⟨hk, hlhs⟩ := ihl
    obtain ⟨hk', hm, hrhs⟩ := ihr
    refine ⟨by omega, Expr.fitsChain_binary hlhs ?_⟩
    exact (hrhs.level hm (by omega)).mono (Nat.le_refl _) (Nat.le_refl _) (by omega)
  | atomAlone _ ih =>
    obtain ⟨hn, hatom⟩ := ih
    exact ⟨Nat.zero_le _, hn, hatom.base, hatom.mono (by omega) (Nat.le_refl _) (Nat.le_refl _)⟩
  | index _ _ hlevel ihb ihp =>
    obtain ⟨hk, hn, hbase⟩ := ihb
    refine ⟨by omega, hn, Expr.fitsChain_succ ?_ rfl⟩
    exact List.forall_mem_cons.2 ⟨hbase.link,
      List.forall_mem_singleton.2 (Fits.mono ihp (Nat.zero_le _) (Nat.zero_le _) (by omega))⟩
  | field _ hlevel ih =>
    obtain ⟨hk, hn, hbase⟩ := ih
    exact ⟨by omega, hn, Expr.fitsChain_succ (List.forall_mem_singleton.2 hbase.link) rfl⟩
  | number h => exact ⟨Nat.succ_pos _, fits_expr (by cases h <;> nofun)⟩
  | str | true | false | null | name => exact ⟨Nat.succ_pos _, fits_expr nofun⟩
  | call hlength _ _ ih | list hlength _ _ ih =>
    exact ⟨Nat.succ_pos _, fits_expr (List.forall_mem_map.2 (forall_mem_of_zip hlength ih))⟩
  | parens _ ih =>
    refine ⟨Nat.succ_pos _, Fits.withSpan ?_ _⟩
    exact Fits.mono ih (Nat.zero_le _) (Nat.le_refl _) (Nat.le_refl _)
  | record hlength _ _ ih =>
    exact ⟨Nat.succ_pos _, fits_expr (List.forall_mem_map.2 (forall_mem_of_zip hlength ih))⟩
  | entry _ ih => exact ih
  | blockValue _ _ ih => exact ⟨Nat.succ_pos _, fits_expr (List.forall_mem_singleton.2 ih)⟩
  | body _ ih => exact fits_block (List.forall_mem_append.2 ⟨List.forall_mem_map.2 ih, nofun⟩)
  | bodyValue _ _ ihs ihv =>
    refine fits_block (List.forall_mem_append.2 ⟨List.forall_mem_map.2 ihs, ?_⟩)
    exact List.forall_mem_singleton.2 ihv
  | noStmt => nofun
  | stmt _ _ ihs ihss => exact List.forall_mem_cons.2 ⟨ihs, ihss⟩
  | bind _ _ ih | assign _ _ ih => exact fits_stmt (List.forall_mem_singleton.2 ih)
  | leave => exact fits_stmt nofun
  | loop _ _ _ _ ihstart ihstop ihbody =>
    exact fits_stmt (List.forall_mem_cons.2 ⟨ihstart,
      List.forall_mem_cons.2 ⟨ihstop, List.forall_mem_singleton.2 ihbody⟩⟩)
  | branch _ _ _ _ ihc ihyes ihno => exact fits_branch ihc ihyes ihno
  | noOtherwise => nofun
  | otherwise _ ih => exact List.forall_mem_singleton.2 ih.otherwise
  | arm _ _ _ ihc ihyes ihno => exact List.forall_mem_singleton.2 (fits_branch ihc ihyes ihno).arm

/-- The parts of a pattern that is spelled with some levels left fit into these. A choice, a new
name and a sequence may stand in one another at a level. -/
def PatternPhrase.Fits (μ : Measure) (n : Nat) : PatternPhrase → Prop
  | .choice p => 0 < n ∧ (Node.pattern p).Fits μ 3 0 (n - 1)
  | .alternatives ps => 0 < n ∧ ∀ p ∈ ps, (Node.pattern p).Fits μ 2 0 (n - 1)
  | .unary p => 0 < n ∧ (Node.pattern p).Fits μ 2 0 (n - 1)
  | .primary p => (Node.pattern p).Fits μ 1 0 n
  | .field f => (Node.pattern f.2).Fits μ 0 0 n

theorem PatternPhrase.Fits.level {n : Nat} {p : Pattern}
    (h : PatternPhrase.Fits μ n (.choice p)) : (Node.pattern p).Fits μ 0 0 n := by
  obtain ⟨hn, hp⟩ := h
  exact hp.level hn (Nat.le_refl _) (Nat.zero_le _)

theorem SpellsPattern.fits {n : Nat} {phrase : PatternPhrase} {action : Bool} {ws : List Mark}
    (h : SpellsPattern n phrase action ws) : phrase.Fits μ n := by
  induction h with
  | alone _ ih => exact ⟨ih.1, ih.2.mono (by omega) (Nat.le_refl _) (Nat.le_refl _)⟩
  | choice _ ih => exact ⟨ih.1, fits_pattern (List.forall_mem_map.2 ih.2)⟩
  | lastAlternative _ ih => exact ⟨ih.1, List.forall_mem_singleton.2 ih.2⟩
  | nextAlternative _ _ ih ihrest => exact ⟨ih.1, List.forall_mem_cons.2 ⟨ih.2, ihrest.2⟩⟩
  | repetition _ ih | negation _ ih =>
    obtain ⟨hn, hp⟩ := ih
    refine ⟨Nat.succ_pos _, Fits.mono (k := 0) ?_ (Nat.zero_le _) (Nat.le_refl _) (Nat.le_refl _)⟩
    exact Fits.level (fits_pattern (List.forall_mem_singleton.2 hp)) hn (Nat.le_refl _)
      (Nat.zero_le _)
  | bare _ ih =>
    exact ⟨Nat.succ_pos _, Fits.mono ih (by omega) (Nat.le_refl _) (Nat.le_refl _)⟩
  | rename _ ih => exact ⟨Nat.succ_pos _, fits_pattern (List.forall_mem_singleton.2 ih)⟩
  | name | literal => exact fits_pattern nofun
  | parens _ ih =>
    exact (ih.level.mono (Nat.zero_le _) (Nat.le_refl _) (Nat.le_refl _)).pattern_withSpan _
  | sequence hlength _ _ ih =>
    exact fits_pattern (List.forall_mem_append.2
      ⟨List.forall_mem_map.2 (forall_mem_of_zip hlength ih), nofun⟩)
  | action hlength _ _ hbody ih =>
    exact fits_pattern (List.forall_mem_append.2
      ⟨List.forall_mem_map.2 (forall_mem_of_zip hlength ih),
        List.forall_mem_singleton.2 hbody.fits⟩)
  | free _ ih | arrow _ ih | colon _ _ ih => exact ih.level

end TextGrammar.Source
