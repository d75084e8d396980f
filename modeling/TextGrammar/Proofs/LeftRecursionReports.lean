import Mathlib.Data.List.Chain
import TextGrammar.Proofs.Compile.LeftRecursion

/-! # Reports of left recursion

Each cycle that the search reports is the way from its first rule back to it, by rules that differ.
The rules on the stack of the search lead one to the next, so the part of the stack that a cycle is
cut from closes with the rule that the search came back to. -/

namespace TextGrammar.Compile

/-- A way through a graph that comes by no vertex twice, and from its last vertex back to its
first one. -/
def IsCircuit (edge : Nat → Nat → Prop) (path : List Nat) : Prop :=
  ∃ first rest, path = first :: rest ∧ path.Nodup ∧ (path ++ [first]).IsChain edge

/-- What is left of a way from the first time on that it comes by a vertex. -/
theorem exists_dropWhile_eq_cons {stack : List Nat} {index : Nat} (h : index ∈ stack) :
    ∃ rest, stack.dropWhile (· != index) = index :: rest := by
  induction stack with
  | nil => cases h
  | cons i stack ih =>
    by_cases heq : i = index
    · subst heq
      exact ⟨stack, by simp⟩
    · have hmem : index ∈ stack := (List.mem_cons.1 h).resolve_left (Ne.symm heq)
      simpa [heq] using ih hmem

section
variable {next : Nat → List Nat}

/-- The stack of a search is a way to the vertex that is visited, by vertices that differ. -/
structure Way (next : Nat → List Nat) (stack : List Nat) (index : Nat) : Prop where
  nodup : stack.Nodup
  chain : (stack ++ [index]).IsChain fun i j => j ∈ next i

theorem Way.start (index : Nat) : Way next [] index := ⟨List.nodup_nil, .singleton index⟩

theorem Way.push {stack : List Nat} {index j : Nat} (h : Way next stack index)
    (hnew : index ∉ stack) (hj : j ∈ next index) : Way next (stack ++ [index]) j where
  nodup := by
    rw [List.nodup_append]
    refine ⟨h.nodup, List.nodup_singleton index, fun i hi k hk heq => hnew ?_⟩
    rwa [← List.mem_singleton.1 hk, ← heq]
  chain := by
    rw [List.append_assoc, List.singleton_append, List.isChain_split]
    exact ⟨h.chain, List.isChain_pair.2 hj⟩

/-- Where a way comes to one of its own vertices, it closes a circuit that starts there. -/
theorem Way.circuit {stack : List Nat} {index : Nat} (h : Way next stack index)
    (hmem : index ∈ stack) :
    IsCircuit (fun i j => j ∈ next i) (stack.dropWhile (· != index)) ∧
      (stack.dropWhile (· != index)).head? = some index := by
  obtain ⟨rest, hrest⟩ := exists_dropWhile_eq_cons hmem
  have hsuffix : index :: rest <:+ stack := hrest ▸ List.dropWhile_suffix _
  rw [hrest]
  refine ⟨⟨index, rest, rfl, hsuffix.sublist.nodup h.nodup, ?_⟩, rfl⟩
  obtain ⟨front, hfront⟩ := hsuffix
  have hchain := h.chain
  rw [← hfront, List.append_assoc] at hchain
  exact hchain.right_of_append

/-- What was reported are circuits, no two of which start at one vertex. -/
structure Search.Sound (next : Nat → List Nat) (s : Search) : Prop where
  circuits : ∀ cycle ∈ s.cycles, IsCircuit (fun i j => j ∈ next i) cycle
  heads : (s.cycles.map List.head?).Nodup

/-- A circuit that starts where none was reported yet. -/
theorem Search.Sound.report {s : Search} (h : s.Sound next) {path : List Nat} {index : Nat}
    (hpath : IsCircuit (fun i j => j ∈ next i) path) (hhead : path.head? = some index)
    (hnew : s.reported index = false) : { s with cycles := s.cycles ++ [path] }.Sound next where
  circuits cycle hcycle := by
    rcases List.mem_append.1 hcycle with hcycle | hcycle
    · exact h.circuits cycle hcycle
    · rwa [List.mem_singleton.1 hcycle]
  heads := by
    have hfresh : ∀ cycle ∈ s.cycles, cycle.head? ≠ some index := by
      simpa [Search.reported] using hnew
    rw [List.map_append, List.map_singleton, hhead, List.nodup_append]
    refine ⟨h.heads, List.nodup_singleton _, fun head hmem other hother heq => ?_⟩
    obtain ⟨cycle, hcycle, rfl⟩ := List.mem_map.1 hmem
    exact hfresh cycle hcycle (heq.trans (List.mem_singleton.1 hother))

/-- A search reports circuits only, however many steps it has. -/
theorem search_sound {steps : Nat} {stack : List Nat} {s : Search} {index : Nat}
    (hway : Way next stack index) (hs : s.Sound next) :
    (search next steps stack s index).Sound next := by
  induction steps generalizing stack s index with
  | zero =>
    unfold search
    split_ifs with hstack hreported
    · exact hs
    · obtain ⟨hcircuit, hhead⟩ := hway.circuit (List.contains_iff_mem.1 hstack)
      exact hs.report hcircuit hhead (by simpa using hreported)
    · exact hs
    · exact hs
  | succ steps ih =>
    unfold search
    split_ifs with hstack hreported
    · exact hs
    · obtain ⟨hcircuit, hhead⟩ := hway.circuit (List.contains_iff_mem.1 hstack)
      exact hs.report hcircuit hhead (by simpa using hreported)
    · exact hs
    · have hnew : index ∉ stack := by simpa using hstack
      refine List.foldlRecOn (motive := (Search.Sound next ·)) (next index) _
        ⟨hs.circuits, hs.heads⟩ ?_
      exact fun t ht j hj => ih (hway.push hnew hj) ht

end

section
variable (rules : List Rule) (known : List Nat)

/-- A rule of a table may enter another one before it consumes input. -/
def MayEnter (i j : Nat) : Prop := ∃ r, rules[i]? = some r ∧ Enters known j r.body

theorem mem_enteredFrom_eq :
    (fun i j => j ∈ enteredFrom rules known i) = MayEnter rules known := by
  funext i j
  exact propext mem_enteredFrom

/-- The cycles in a table are circuits, no two of which start at one rule. -/
theorem cycles_sound :
    (∀ cycle ∈ cycles rules known, IsCircuit (MayEnter rules known) cycle) ∧
      ((cycles rules known).map List.head?).Nodup := by
  have hsound : ((List.range rules.length).foldl
      (search (enteredFrom rules known) (rules.length + 1) []) ⟨[], []⟩).Sound
        (enteredFrom rules known) := by
    refine List.foldlRecOn (motive := (Search.Sound _ ·)) _ _ ⟨nofun, List.nodup_nil⟩ ?_
    exact fun s hs i _ => search_sound (Way.start i) hs
  rw [← mem_enteredFrom_eq]
  exact ⟨hsound.circuits, hsound.heads⟩

/-- A report tells of a circuit: it stands where the first rule of the circuit is named, and
gives the names of the rules on it, that of the first one again at the end. Unless the first name is
empty, as it is in no source, there are arrows between all of them. -/
def Tells (spans : List Span) (report : Report) (path : List Nat) : Prop :=
  ∃ first, path.head? = some first ∧ report.span = spans.getD first default ∧
    report.message = "Left recursion: " ++
      pathText ((path ++ [first]).map (Grammar.nameIn rules)) ∧
    (Grammar.nameIn rules first ≠ "" → report.message = "Left recursion: " ++
      " -> ".intercalate ((path ++ [first]).map (Grammar.nameIn rules)))

variable {rules known}

theorem pathText_cons {first : String} (h : first ≠ "") (names : List String) :
    pathText (first :: names) = " -> ".intercalate (first :: names) := by
  rw [pathText, List.foldl_cons, if_pos rfl]
  induction names generalizing first with
  | nil => exact String.intercalate_singleton.symm
  | cons next names ih =>
    have hpath : first ++ " -> " ++ next ≠ "" := by
      intro hempty
      exact h (String.append_eq_empty_iff.1 (String.append_eq_empty_iff.1 hempty).1).1
    rw [List.foldl_cons, if_neg h, ih hpath, String.intercalate_cons_cons,
      String.intercalate_cons_append]

theorem tells_of_circuit {spans : List Span} {path : List Nat}
    (h : IsCircuit (MayEnter rules known) path) :
    Tells rules spans (cycleFinding rules spans path).report path := by
  obtain ⟨first, rest, rfl, -⟩ := h
  refine ⟨first, rfl, rfl, rfl, fun hname => ?_⟩
  exact congrArg ("Left recursion: " ++ ·) (pathText_cons hname _)

end

/-- For every table of rules and every list of nullable ones: something is reported exactly if a
rule can come back to itself along what rules may enter before they consume input. Each report
tells of a circuit of rules that differ, and no rule is the first one of two of these circuits. -/
theorem left_recursion_reports (rules : List Rule) (spans : List Span) (known : List Nat) :
    (leftRecursionFindings rules spans known ≠ [] ↔
      ∃ i, Relation.TransGen (MayEnter rules known) i i) ∧
    ∃ circuits, List.Forall₂ (Tells rules spans)
        ((leftRecursionFindings rules spans known).map Finding.report) circuits ∧
      (∀ path ∈ circuits, IsCircuit (MayEnter rules known) path) ∧
      (circuits.map List.head?).Nodup := by
  obtain ⟨hcircuits, hheads⟩ := cycles_sound rules known
  refine ⟨?_, cycles rules known, ?_, hcircuits, hheads⟩
  · rw [leftRecursionFindings, ne_eq, List.map_eq_nil_iff, cycles_eq_nil_iff]
    simp only [Follows, mem_enteredFrom_eq, not_forall, not_not]
  · rw [leftRecursionFindings, List.map_map, List.forall₂_map_left_iff, List.forall₂_same]
    exact fun path hpath => tells_of_circuit (hcircuits path hpath)

/-- A rule that may enter itself and another one, which may enter it. There are two circuits that
start with it, of which one is reported. -/
example : (leftRecursionFindings
    [⟨"a", .choice [.rule 1 none, .rule 0 none]⟩, ⟨"b", .choice [.rule 0 none, .leaf .line]⟩]
    [] []).map (·.report.message) = ["Left recursion: a -> b -> a"] := by
  decide

end TextGrammar.Compile
