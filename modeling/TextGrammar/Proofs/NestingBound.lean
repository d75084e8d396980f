import TextGrammar.Proofs.Syntax.Nesting
import TextGrammar.Proofs.Syntax.Sources

/-! # The nesting limit bounds source trees

The passes behind the parser recurse over the tree of a source. The limit on nesting keeps the
blocks on a path of the tree below it, and so the rest of the path, with two exceptions: an
`else if` is a block in the tree and takes no level, and a chain of operators or suffixes gives the
levels of its links back before the next chain is counted. -/

namespace TextGrammar
open Source (Node Measure nestingLimit parseFile)

namespace Source

/-- The parts of a source that stand in no other: the patterns of its rules, and its start
patterns. -/
def File.tops (file : File) : List Node :=
  (file.rules.map fun r => .pattern r.body) ++ file.starts.map .pattern

/-- A pattern at the top of a source stands at the first level. -/
theorem Lays.fits {μ : Measure} {n : Nat} {file : File} {entries : List Entry}
    (h : Lays n file entries) {top : Node} (htop : top ∈ file.tops) : top.Fits μ 3 0 (n - 1) := by
  have hspelled : ∃ p action ws, top = .pattern p ∧ SpellsPattern n (.choice p) action ws := by
    obtain hrule | hstart := List.mem_append.1 htop
    · obtain ⟨r, hr, rfl⟩ := List.mem_map.1 hrule
      rw [h.rules] at hr
      obtain ⟨x, hx, hitem⟩ := List.mem_filterMap.1 hr
      cases h.spelled x hx with
      | rule hbody =>
        cases hitem
        exact ⟨_, _, _, rfl, hbody⟩
      | separator | start | startEnded => cases hitem
    · obtain ⟨p, hp, rfl⟩ := List.mem_map.1 hstart
      rw [h.starts] at hp
      obtain ⟨x, hx, hitem⟩ := List.mem_filterMap.1 hp
      cases h.spelled x hx with
      | start hbody | startEnded hbody =>
        cases hitem
        exact ⟨_, _, _, rfl, hbody⟩
      | separator | rule => cases hitem
  obtain ⟨p, action, ws, rfl, hp⟩ := hspelled
  exact hp.fits.2

end Source

namespace Source.Node

/-- The path that takes the part with the next number, as long as there is one. -/
def descent : List Nat → Node → List Node
  | [], x => [x]
  | i :: steps, x =>
    match x.parts[i]? with
    | some y => x :: descent steps y
    | none => [x]

theorem path_descent (steps : List Nat) (x : Node) : Path x (descent steps x) := by
  induction steps generalizing x with
  | nil => exact .stop x
  | cons i steps ih =>
    rw [descent]
    split
    · next y hy => exact .step (List.mem_of_getElem? hy) (ih y)
    · exact .stop x

end Source.Node

/-- Whether a source is parsed, and the path with some steps from its first pattern holds more than
a number of some parts. -/
def nestsBeyond (source : List Char) (steps : List Nat) (counted : Node → Bool) (n : Nat) : Bool :=
  match parseFile source with
  | .ok file => file.tops.head?.any fun top => n < (top.descent steps).countP counted
  | .error _ => false

theorem exists_of_nestsBeyond (source : List Char) (steps : List Nat) (counted : Node → Bool)
    (n : Nat) (h : nestsBeyond source steps counted n) :
    ∃ file, parseFile source = .ok file ∧ ∃ top ∈ file.tops, ∃ path, Node.Path top path ∧
      n < path.countP counted := by
  rw [nestsBeyond] at h
  split at h
  · next file hfile =>
    obtain ⟨top, htop, hcount⟩ := Option.any_eq_true _ _ |>.1 h
    exact ⟨file, hfile, top, List.mem_of_mem_head? htop, _, Node.path_descent _ _,
      of_decide_eq_true hcount⟩
  · cases h

/-- The nesting limit bounds what a parsed source nests, on every path from one of its patterns
down. There are no more blocks than the limit, but for those of `else if`. There are no more than
three times as many patterns, expressions and blocks, but for these and for the links of chains,
and the square of the limit bounds how many links there are. -/
theorem parseFile_nesting {source : List Char} {file : Source.File}
    (h : parseFile source = .ok file) {top : Node} (htop : top ∈ file.tops) {path : List Node}
    (hpath : Node.Path top path) :
    path.countP (fun x => x.isBlock && !x.isArm) ≤ nestingLimit ∧
    path.countP (fun x => !x.isStmt && !x.isArm && !x.isLink) ≤ 3 * nestingLimit ∧
    path.countP (fun x => !x.isStmt && !x.isArm) ≤
      3 * (nestingLimit * (nestingLimit - 1) / 2 + 1) := by
  obtain ⟨entries, hlays, -⟩ := Source.parseFile_spelled h
  have hbound (μ : Measure) : path.countP μ.counts ≤
      3 * μ.node + 0 * μ.link + μ.room (nestingLimit - 1) := hlays.fits htop path hpath
  exact ⟨Nat.le_trans (hbound .blocks) (by decide +kernel),
    Nat.le_trans (hbound .levels) (by decide +kernel),
    Nat.le_trans (hbound .parts) (by decide +kernel)⟩

def loopSource : List Char :=
  "meta \x7b a := [x: int] => \x7b for k in 0..x \x7b \x7d x \x7d; --- a \x7d".toList

theorem parseFile_nesting_loop :
    ∃ file, parseFile loopSource = .ok file ∧ ∃ top ∈ file.tops, ∃ path, Node.Path top path ∧
      1 < path.countP Node.isBlock ∧
      path.countP (fun x => x.isBlock && !x.isArm) ≤ nestingLimit ∧
      path.countP (fun x => !x.isStmt && !x.isArm && !x.isLink) ≤ 3 * nestingLimit ∧
      path.countP (fun x => !x.isStmt && !x.isArm) ≤
        3 * (nestingLimit * (nestingLimit - 1) / 2 + 1) := by
  obtain ⟨file, hfile, top, htop, path, hpath, hcount⟩ :=
    exists_of_nestsBeyond loopSource [1, 0, 0, 2] Node.isBlock 1 (by decide +kernel)
  exact ⟨file, hfile, top, htop, path, hpath, hcount, parseFile_nesting hfile htop hpath⟩

def armsSource : List Char :=
  "meta \x7b a := [x: int] => \x7b if x \x7b \x7d".toList ++
    (List.replicate 129 " else if x \x7b \x7d".toList).flatten ++ " \x7d; --- a \x7d".toList

/-- A rule with a sum whose first operand is a list with another one, and so on. -/
def sumsSource : List Char :=
  "meta \x7b a := [x: int] => [[[[x".toList ++
    (List.replicate 4 ((List.replicate 120 " + x".toList).flatten ++ "]".toList)).flatten ++
      (List.replicate 120 " + x".toList).flatten ++ "; --- a \x7d".toList

/-- More blocks than the limit are nested by `else if`, and more parts than four times the limit
by chains alone. -/
theorem parseFile_nesting_exceeded :
    (∃ file, parseFile armsSource = .ok file ∧ ∃ top ∈ file.tops, ∃ path, Node.Path top path ∧
      nestingLimit < path.countP Node.isBlock) ∧
    ∃ file, parseFile sumsSource = .ok file ∧ ∃ top ∈ file.tops, ∃ path, Node.Path top path ∧
      4 * nestingLimit < path.countP fun x => !x.isStmt && !x.isArm := by
  constructor
  · exact exists_of_nestsBeyond _ ([1, 0, 0] ++ (List.replicate 129 [2, 0]).flatten) _ _
      (by decide +kernel)
  · exact exists_of_nestsBeyond _ (1 :: List.replicate 700 0) _ _ (by decide +kernel)

end TextGrammar
