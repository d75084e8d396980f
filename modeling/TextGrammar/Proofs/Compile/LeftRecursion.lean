import Mathlib.Data.Finset.Card
import Mathlib.Order.WellFounded
import TextGrammar.Compile.LeftRecursion
import TextGrammar.Proofs.Compile.Nullability

/-! # Cycles are found

The graph of left recursion has an edge from a rule to each rule that its pattern may enter before
it consumes input. The search closes a cycle exactly if there is one. When it closes none, nothing
can go around in the graph, so each rule has a rank that falls along every edge. -/

namespace TextGrammar.Compile

section
variable (known : List Nat) (j : Nat)

mutual

/-- A pattern may enter a rule before it consumes input. -/
def Enters : Pattern → Prop
  | .leaf _ | .literal _ => False
  | .sequence _ fields | .action _ fields _ _ => EntersFields fields
  | .repetition body | .negation body => Enters body
  | .choice alternatives => EntersAny alternatives
  | .rule index _ => index = j

def EntersFields : List (Option Binding × Pattern) → Prop
  | [] => False
  | (_, p) :: rest => Enters p ∨ (isNullable known p = true ∧ EntersFields rest)

def EntersAny : List Pattern → Prop
  | [] => False
  | p :: ps => Enters p ∨ EntersAny ps

end

end

section
variable {known : List Nat}

mutual

theorem entered_spec : ∀ (p : Pattern) (found : List Nat),
    (entered known p found).1 = isNullable known p ∧
      ∀ j, j ∈ (entered known p found).2 ↔ j ∈ found ∨ Enters known j p
  | .leaf _, found => ⟨rfl, fun j => by simp [entered, Enters]⟩
  | .literal _, found => ⟨rfl, fun j => by simp [entered, Enters]⟩
  | .sequence _ fields, found => by
    simp only [entered, isNullable, Enters]
    exact enteredByFields_spec fields found
  | .action _ fields _ _, found => by
    simp only [entered, isNullable, Enters]
    exact enteredByFields_spec fields found
  | .repetition body, found => by
    simp only [entered, isNullable, Enters]
    exact ⟨trivial, (entered_spec body found).2⟩
  | .negation body, found => by
    simp only [entered, isNullable, Enters]
    exact ⟨trivial, (entered_spec body found).2⟩
  | .choice alternatives, found => by
    simp only [entered, isNullable, Enters]
    exact enteredByAny_spec alternatives found
  | .rule index _, found => by
    simp only [entered, isNullable, Enters, true_and]
    intro j
    by_cases hfound : index ∈ found
    · rw [if_pos (by simpa using hfound)]
      constructor
      · exact .inl
      · rintro (hj | rfl)
        · exact hj
        · exact hfound
    · rw [if_neg (by simpa using hfound)]
      simp [eq_comm]

theorem enteredByFields_spec : ∀ (fields : List (Option Binding × Pattern)) (found : List Nat),
    (enteredByFields known fields found).1 = areNullable known fields ∧
      ∀ j, j ∈ (enteredByFields known fields found).2 ↔ j ∈ found ∨ EntersFields known j fields
  | [], found => ⟨rfl, fun j => by simp [enteredByFields, EntersFields]⟩
  | (_, p) :: rest, found => by
    obtain ⟨hnullable, hmem⟩ := entered_spec p found
    unfold enteredByFields
    rcases hp : entered known p found with ⟨b, first⟩
    rw [hp] at hnullable hmem
    cases b with
    | true =>
      obtain ⟨hrest, hmemRest⟩ := enteredByFields_spec rest first
      refine ⟨by simpa [areNullable, ← hnullable] using hrest, fun j => ?_⟩
      simp only [hmemRest, hmem, EntersFields, ← hnullable, true_and, or_assoc]
    | false =>
      refine ⟨by simp [areNullable, ← hnullable], fun j => ?_⟩
      simp only [hmem, EntersFields, ← hnullable, Bool.false_eq_true, false_and, or_false]

theorem enteredByAny_spec : ∀ (ps : List Pattern) (found : List Nat),
    (enteredByAny known ps found).1 = anyNullable known ps ∧
      ∀ j, j ∈ (enteredByAny known ps found).2 ↔ j ∈ found ∨ EntersAny known j ps
  | [], found => ⟨rfl, fun j => by simp [enteredByAny, EntersAny]⟩
  | p :: ps, found => by
    obtain ⟨hnullable, hmem⟩ := entered_spec p found
    obtain ⟨hrest, hmemRest⟩ := enteredByAny_spec ps (entered known p found).2
    refine ⟨by simp [enteredByAny, anyNullable, hnullable, hrest], fun j => ?_⟩
    simp only [enteredByAny, EntersAny, hmemRest, hmem, or_assoc]

end

/-- The edges of the graph: a rule leads to those that its pattern may enter. -/
theorem mem_enteredFrom {rules : List Rule} {i j : Nat} :
    j ∈ enteredFrom rules known i ↔ ∃ r, rules[i]? = some r ∧ Enters known j r.body := by
  unfold enteredFrom
  cases hr : rules[i]? with
  | none => simp
  | some r => simp [(entered_spec r.body []).2 j]

end

section
variable (next : Nat → List Nat)

def Ends (i : Nat) : Prop := Acc (fun y x => y ∈ next x) i

def LeftBehind (stack : List Nat) (s : Search) : Prop :=
  ∀ i ∈ s.visited, i ∉ stack → Ends next i

end

section
variable {next : Nat → List Nat}

theorem foldl_cycles {f : Search → Nat → Search} {vertices : List Nat} {s : Search}
    (h : (vertices.foldl f s).cycles = [])
    (hf : ∀ {s i}, (f s i).cycles = [] → s.cycles = []) : s.cycles = [] := by
  induction vertices generalizing s with
  | nil => exact h
  | cons v rest ih => exact hf (ih h)

/-- No cycle is taken back. -/
theorem search_cycles {steps : Nat} {stack : List Nat} {s : Search} {index : Nat}
    (h : (search next steps stack s index).cycles = []) : s.cycles = [] := by
  induction steps generalizing stack s index with
  | zero =>
    unfold search at h
    split at h
    · split at h
      · exact h
      · simp at h
    · split at h <;> exact h
  | succ steps ih =>
    unfold search at h
    split at h
    · split at h
      · exact h
      · simp at h
    · split at h
      · exact h
      · dsimp only at h
        have hvisited := foldl_cycles h ih
        exact hvisited

/-- A stack of the search: vertices below `total`, each once, with steps left for all others. -/
structure Fits (total steps : Nat) (stack : List Nat) : Prop where
  nodup : stack.Nodup
  below : ∀ i ∈ stack, i < total
  steps : steps + stack.length = total + 1

theorem Fits.pos {total steps : Nat} {stack : List Nat} (h : Fits total steps stack) :
    0 < steps := by
  have hle := length_le_of_nodup h.nodup h.below
  have hsteps := h.steps
  omega

theorem Fits.push {total steps index : Nat} {stack : List Nat}
    (h : Fits total (steps + 1) stack) (hnew : index ∉ stack) (hlt : index < total) :
    Fits total steps (stack ++ [index]) where
  nodup := by
    rw [List.nodup_append]
    refine ⟨h.nodup, by simp, fun i hi j hj e => hnew ?_⟩
    rw [List.mem_singleton] at hj
    exact hj ▸ e ▸ hi
  below i hi := by
    rcases List.mem_append.1 hi with hi | hi
    · exact h.below i hi
    · rwa [List.mem_singleton.1 hi]
  steps := by
    have hsteps := h.steps
    simp only [List.length_append, List.length_singleton]
    omega

theorem foldl_search_ends {steps : Nat} {stack : List Nat}
    (hsearch : ∀ {s index}, (search next steps stack s index).cycles = [] →
      LeftBehind next stack s →
      LeftBehind next stack (search next steps stack s index) ∧ Ends next index)
    {vertices : List Nat} {s : Search}
    (h : (vertices.foldl (search next steps stack) s).cycles = [])
    (hs : LeftBehind next stack s) :
    LeftBehind next stack (vertices.foldl (search next steps stack) s) ∧
      ∀ i ∈ vertices, Ends next i := by
  induction vertices generalizing s with
  | nil => exact ⟨hs, nofun⟩
  | cons v rest ih =>
    obtain ⟨hs', hv⟩ := hsearch (foldl_cycles h search_cycles) hs
    obtain ⟨hrest, hall⟩ := ih h hs'
    refine ⟨hrest, fun i hi => ?_⟩
    rcases List.mem_cons.1 hi with rfl | hi
    · exact hv
    · exact hall i hi

/-- A search that reports no cycle has found every way from its vertex to end. -/
theorem search_ends {total : Nat} (hnext : ∀ i, total ≤ i → next i = []) {steps : Nat}
    {stack : List Nat} {s : Search} {index : Nat} (hfits : Fits total steps stack)
    (h : (search next steps stack s index).cycles = []) (hs : LeftBehind next stack s) :
    LeftBehind next stack (search next steps stack s index) ∧ Ends next index := by
  induction steps generalizing stack s index with
  | zero => exact absurd hfits.pos (Nat.lt_irrefl 0)
  | succ steps ih =>
    have hnone := search_cycles h
    unfold search at h ⊢
    by_cases hstack : stack.contains index = true
    · rw [if_pos hstack] at h
      split at h
      · rename_i hreported
        rw [Search.reported, hnone] at hreported
        cases hreported
      · simp at h
    rw [if_neg hstack] at h ⊢
    have hnew : index ∉ stack := by simpa using hstack
    by_cases hvisited : s.visited.contains index = true
    · rw [if_pos hvisited]
      exact ⟨hs, hs index (by simpa using hvisited) hnew⟩
    · rw [if_neg hvisited] at h ⊢
      have hpushed : LeftBehind next (stack ++ [index])
          { s with visited := index :: s.visited } := by
        intro i hi hout
        rw [List.mem_append, List.mem_singleton, not_or] at hout
        rcases List.mem_cons.1 hi with rfl | hi
        · exact absurd rfl hout.2
        · exact hs i hi hout.1
      obtain ⟨hleft, hall⟩ : LeftBehind next (stack ++ [index])
          ((next index).foldl (search next steps (stack ++ [index]))
            { s with visited := index :: s.visited }) ∧ ∀ i ∈ next index, Ends next i := by
        by_cases hlt : index < total
        · exact foldl_search_ends (fun h hs => ih (hfits.push hnew hlt) h hs) h hpushed
        · rw [hnext index (Nat.le_of_not_lt hlt)]
          exact ⟨hpushed, nofun⟩
      have hends : Ends next index := Acc.intro index hall
      refine ⟨fun i hi hout => ?_, hends⟩
      by_cases heq : i = index
      · rwa [heq]
      · exact hleft i hi (by simp [hout, heq])

/-- A search closes no cycle where there is none: everything on its stack comes to its vertex. -/
theorem search_closes_none (hacyclic : ∀ i, ¬Relation.TransGen (fun x y => y ∈ next x) i i)
    {steps : Nat} {stack : List Nat} {s : Search} {index : Nat}
    (hstack : ∀ i ∈ stack, Relation.TransGen (fun x y => y ∈ next x) i index)
    (hs : s.cycles = []) : (search next steps stack s index).cycles = [] := by
  induction steps generalizing stack s index with
  | zero =>
    unfold search
    rw [if_neg fun h => hacyclic index (hstack index (by simpa using h))]
    split <;> exact hs
  | succ steps ih =>
    unfold search
    rw [if_neg fun h => hacyclic index (hstack index (by simpa using h))]
    split
    · exact hs
    · dsimp only
      refine List.foldlRecOn (motive := fun t : Search => t.cycles = []) (next index) _ ?_ ?_
      · exact hs
      · intro t ht j hj
        refine ih (fun i hi => ?_) ht
        rcases List.mem_append.1 hi with hi | hi
        · exact (hstack i hi).tail hj
        · rw [List.mem_singleton.1 hi]
          exact .single hj

end

section
variable {rules : List Rule} {known : List Nat}

theorem enteredFrom_of_le {i : Nat} (h : rules.length ≤ i) : enteredFrom rules known i = [] := by
  unfold enteredFrom
  rw [List.getElem?_eq_none h]

/-- When no cycle is reported, every way through the graph ends. -/
theorem ends_of_cycles_eq_nil (h : cycles rules known = []) (i : Nat) :
    Ends (enteredFrom rules known) i := by
  by_cases hi : i < rules.length
  · have hfits : Fits rules.length (rules.length + 1) [] := ⟨List.nodup_nil, nofun, rfl⟩
    have hall := foldl_search_ends
      (fun h hs => search_ends (fun _ => enteredFrom_of_le) hfits h hs) h
      (fun _ hmem => absurd hmem List.not_mem_nil)
    exact hall.2 i (List.mem_range.2 hi)
  · refine Acc.intro i fun j hj => ?_
    rw [enteredFrom_of_le (Nat.le_of_not_lt hi)] at hj
    cases hj

variable (rules known) in
def Follows (i j : Nat) : Prop :=
  Relation.TransGen (fun x y => y ∈ enteredFrom rules known x) i j

theorem not_follows_self (h : cycles rules known = []) (i : Nat) : ¬Follows rules known i i := by
  have hends : WellFounded fun y x => y ∈ enteredFrom rules known x :=
    ⟨ends_of_cycles_eq_nil h⟩
  intro hself
  exact hends.transGen.irrefl.irrefl i (Relation.transGen_swap.1 hself)

/-- A cycle is reported exactly if there is one. -/
theorem cycles_eq_nil_iff : cycles rules known = [] ↔ ∀ i, ¬Follows rules known i i := by
  constructor
  · exact not_follows_self
  · intro hacyclic
    refine List.foldlRecOn (motive := fun s : Search => s.cycles = []) _ _ rfl ?_
    intro s hs i _
    exact search_closes_none hacyclic (fun _ hmem => absurd hmem List.not_mem_nil) hs

open Classical in
variable (rules known) in
/-- The number of rules that can be come to from a rule. -/
noncomputable def rank (i : Nat) : Nat :=
  ((Finset.range rules.length).filter fun j => Follows rules known i j).card

/-- There are more rules than any rule comes to. -/
theorem rank_lt (h : cycles rules known = []) {i : Nat} (hi : i < rules.length) :
    rank rules known i < rules.length := by
  classical
  have hproper : (Finset.range rules.length).filter (fun j => Follows rules known i j) ⊂
      Finset.range rules.length := by
    rw [Finset.filter_ssubset]
    exact ⟨i, Finset.mem_range.2 hi, not_follows_self h i⟩
  have hlt := Finset.card_lt_card hproper
  rw [Finset.card_range] at hlt
  unfold rank
  convert hlt

/-- The rank falls along an edge. -/
theorem rank_lt_rank (h : cycles rules known = []) {i j : Nat} (hj : j < rules.length)
    (hedge : j ∈ enteredFrom rules known i) : rank rules known j < rank rules known i := by
  classical
  unfold rank
  apply Finset.card_lt_card
  rw [Finset.ssubset_iff_of_subset]
  · refine ⟨j, ?_, ?_⟩
    · exact Finset.mem_filter.2 ⟨Finset.mem_range.2 hj, .single hedge⟩
    · intro hmem
      exact not_follows_self h j (Finset.mem_filter.1 hmem).2
  · intro k hk
    obtain ⟨hk, hfollows⟩ := Finset.mem_filter.1 hk
    exact Finset.mem_filter.2 ⟨hk, .head hedge hfollows⟩

end

end TextGrammar.Compile
