import TextGrammar.Grammar.Display
import TextGrammar.Proofs.Compile.Scopes
import TextGrammar.Proofs.Compile.Slots

/-! # Variables in displayed actions

The display writes a variable with the name that it had in its source, and a field with the one
name that it is bound to. What a displayed variable means is told by the declarations and the fields
that are written before it; what it should mean is the slot that it was resolved to. -/

namespace TextGrammar
open Compile (Scope Locals Numbers lookupCapture lookupCapture_eq_capture numbers_bind numbers_pure
  numbers_report numbers_declareLocal lowerName_numbers assignedSlot_numbers)

/-- What a variable stands for: a declared local, or a field of a sequence around it, counted from
the innermost one outwards. -/
inductive Referent where
  | declared (slot : Nat)
  | field (depth slot : Nat)
deriving DecidableEq, Repr

/-- What is written before a place of an action and still in force: the declarations of the open
blocks, and the names in front of the fields of each sequence around it, the latest first. -/
structure Written where
  declared : List (String × Nat)
  fields : List Scope

namespace Written

/-- What a name means at a place. -/
def meaning? (w : Written) (name : String) : Option Referent :=
  match w.declared.lookup name with
  | some slot => some (.declared slot)
  | none =>
    match lookupCapture 0 name w.fields with
    | .capture depth slot => some (.field depth slot)
    | _ => none

def declare (w : Written) (name : String) (slot : Nat) : Written :=
  { w with declared := (name, slot) :: w.declared }

theorem meaning?_eq_field {w : Written} {name : String} {depth slot : Nat}
    (h : w.meaning? name = some (.field depth slot)) :
    lookupCapture 0 name w.fields = .capture depth slot := by
  unfold meaning? at h
  split at h
  · cases h
  · split at h
    · cases h
      assumption
    · cases h

end Written

/-- A variable in a displayed action: its name, what it was resolved to, and what is in force. -/
structure Mention where
  name : String
  referent : Referent
  written : Written

/-- A variable means what it was resolved to. -/
def Mention.IsBound (m : Mention) : Prop := m.written.meaning? m.name = some m.referent

instance (m : Mention) : Decidable m.IsBound :=
  inferInstanceAs (Decidable (m.written.meaning? m.name = some m.referent))

def Stmt.after (w : Written) : Stmt → Written
  | .bind name slot _ => w.declare name slot
  | .assign .. | .loop .. | .branch .. | .leave => w

mutual

def Expr.mentions (w : Written) : Expr → List Mention
  | .literal _ => []
  | .captured name depth slot => [⟨name, .field depth slot, w⟩]
  | .fetch name slot => [⟨name, .declared slot, w⟩]
  | .index base position => base.mentions w ++ position.mentions w
  | .field base _ => base.mentions w
  | .call _ arguments => Expr.mentionsOfAll w arguments
  | .binary _ lhs rhs => lhs.mentions w ++ rhs.mentions w
  | .list items => Expr.mentionsOfAll w items
  | .record fields => Expr.mentionsOfFields w fields
  | .block body => body.mentions w

def Expr.mentionsOfAll (w : Written) : List Expr → List Mention
  | [] => []
  | e :: es => e.mentions w ++ Expr.mentionsOfAll w es

def Expr.mentionsOfFields (w : Written) : List (String × Expr) → List Mention
  | [] => []
  | (_, e) :: rest => e.mentions w ++ Expr.mentionsOfFields w rest

def Block.mentions (w : Written) : Block → List Mention
  | .mk stmts result =>
    Stmt.mentionsOfAll w stmts ++ Block.mentionsOfResult (stmts.foldl Stmt.after w) result

def Block.mentionsOfResult (w : Written) : Option Expr → List Mention
  | none => []
  | some e => e.mentions w

def Stmt.mentionsOfAll (w : Written) : List Stmt → List Mention
  | [] => []
  | s :: rest => s.mentions w ++ Stmt.mentionsOfAll (s.after w) rest

/-- The variables in a statement. The one that it declares is no mention, the one that it assigns
is. -/
def Stmt.mentions (w : Written) : Stmt → List Mention
  | .bind _ _ value => value.mentions w
  | .assign name slot _ value => ⟨name, .declared slot, w⟩ :: value.mentions w
  | .loop name slot start stop body =>
    start.mentions w ++ stop.mentions w ++ body.mentions (w.declare name slot)
  | .branch condition yes no =>
    condition.mentions w ++ yes.mentions w ++ Stmt.mentionsOfOtherwise w no
  | .leave => []

def Stmt.mentionsOfOtherwise (w : Written) : Option Block → List Mention
  | none => []
  | some b => b.mentions w

end

/-- The names in front of the fields of a sequence, behind one more field. -/
def Field.behind (own : Scope) (f : Field) : Scope :=
  match f.1 with
  | some b => (b.name, b.slot) :: own
  | none => own

mutual

/-- The variables in the actions inside a pattern that stands in some sequences, in order. -/
def Pattern.mentions (outer : List Scope) : Pattern → List Mention
  | .leaf _ | .literal _ | .rule _ _ => []
  | .sequence _ fields => Pattern.mentionsOfFields outer [] fields
  | .action _ fields _ body =>
    Pattern.mentionsOfFields outer [] fields ++
      body.mentions ⟨[], fields.foldl Field.behind [] :: outer⟩
  | .repetition p | .negation p => p.mentions outer
  | .choice alternatives => Pattern.mentionsOfAll outer alternatives

def Pattern.mentionsOfAll (outer : List Scope) : List Pattern → List Mention
  | [] => []
  | p :: ps => p.mentions outer ++ Pattern.mentionsOfAll outer ps

def Pattern.mentionsOfFields (outer : List Scope) (own : Scope) :
    List (Option Binding × Pattern) → List Mention
  | [] => []
  | (b, p) :: rest =>
    p.mentions (own :: outer) ++
      Pattern.mentionsOfFields outer (Field.behind own (b, p)) rest

end

section
variable {X : String → String → Prop}

/-- The names in front of the fields of a sequence are among those that it binds; a name that is
missing was replaced by another one. -/
structure Shows (X : String → String → Prop) (shown scope : Scope) : Prop where
  sound : ∀ name slot, shown.lookup name = some slot → scope.lookup name = some slot
  complete : ∀ name slot, scope.lookup name = some slot →
    shown.lookup name = some slot ∨ ∃ key, X name key ∧ shown.lookup key = some slot
  once : ∀ name other slot, shown.lookup name = some slot → shown.lookup other = some slot →
    name = other

/-- What is written agrees with the scopes and locals that names are resolved in; names are replaced
by others. -/
structure Written.Agrees (X : String → String → Prop) (w : Written) (scopes : List Scope)
    (locals : Locals) : Prop where
  declared : ∀ name, w.declared.lookup name = (locals.lookup name).map (·.slot)
  fields : List.Forall₂ (Shows X) w.fields scopes
  apart : ∀ name key, X name key → key ≠ name

/-- The field that a variable was resolved to is written with another name that replaced its
own. -/
def Mention.IsReplaced (X : String → String → Prop) (m : Mention) : Prop :=
  ∃ depth slot key scope, m.referent = .field depth slot ∧ X m.name key ∧
    m.written.fields[depth]? = some scope ∧ scope.lookup key = some slot

/-- A variable is bound where it is written, but for those whose names were replaced. -/
def Mention.Fits (X : String → String → Prop) (m : Mention) : Prop :=
  m.IsBound ↔ ¬m.IsReplaced X

namespace Written.Agrees
variable {w : Written} {scopes : List Scope} {locals : Locals}

theorem declare (h : w.Agrees X scopes locals) (name : String) (slot : Nat) (mutable : Bool) :
    (w.declare name slot).Agrees X scopes ((name, ⟨slot, mutable⟩) :: locals) where
  declared other := by
    change List.lookup other ((name, slot) :: w.declared) = _
    rw [List.lookup_cons, List.lookup_cons]
    cases other == name
    · exact h.declared other
    · rfl
  fields := h.fields
  apart := h.apart

/-- A declared local is found where it is written. -/
theorem fits_declared (h : w.Agrees X scopes locals) {name : String} {l : Compile.Local}
    (hlocal : locals.lookup name = some l) : Mention.Fits X ⟨name, .declared l.slot, w⟩ := by
  refine iff_of_true ?_ ?_
  · rw [Mention.IsBound, meaning?, h.declared, hlocal]
    rfl
  · rintro ⟨_, _, _, _, ⟨⟩, -⟩

theorem getElem?_fields (h : w.Agrees X scopes locals) {depth : Nat} {scope : Scope}
    (hscope : scopes[depth]? = some scope) :
    ∃ shown, w.fields[depth]? = some shown ∧ Shows X shown scope := by
  obtain ⟨hlt, rfl⟩ := List.getElem?_eq_some_iff.1 hscope
  have hlt' : depth < w.fields.length := by rwa [h.fields.length_eq]
  exact ⟨w.fields[depth], List.getElem?_eq_getElem hlt', h.fields.get hlt' hlt⟩

theorem getElem?_scopes (h : w.Agrees X scopes locals) {depth : Nat} {shown : Scope}
    (hshown : w.fields[depth]? = some shown) :
    ∃ scope, scopes[depth]? = some scope ∧ Shows X shown scope := by
  obtain ⟨hlt, rfl⟩ := List.getElem?_eq_some_iff.1 hshown
  have hlt' : depth < scopes.length := by rwa [← h.fields.length_eq]
  exact ⟨scopes[depth], List.getElem?_eq_getElem hlt', h.fields.get hlt hlt'⟩

/-- A field is found under its name, unless another name is written in front of it. -/
theorem fits_field (h : w.Agrees X scopes locals)
    {name : String} {depth slot : Nat} (hlocal : locals.lookup name = none)
    (hcapture : lookupCapture 0 name scopes = .capture depth slot) :
    Mention.Fits X ⟨name, .field depth slot, w⟩ := by
  obtain ⟨k, scope, hk, hscope, hslot, hinner⟩ := lookupCapture_eq_capture.1 hcapture
  obtain rfl : k = depth := by omega
  obtain ⟨shown, hshown, hshows⟩ := h.getElem?_fields hscope
  constructor
  · rintro hbound ⟨_, _, key, _, ⟨⟩, hkey, hat, hreplaced⟩
    obtain ⟨_, other, hother, hfound, hname, -⟩ :=
      lookupCapture_eq_capture.1 (meaning?_eq_field hbound)
    obtain rfl := hother.trans (Nat.zero_add _)
    cases hfound.symm.trans hat
    exact h.apart name key hkey (hshows.once _ _ _ (by cases hat.symm.trans hshown; exact hreplaced)
      (by cases hat.symm.trans hshown; exact hname))
  · intro hnot
    obtain hname | ⟨key, hkey, hreplaced⟩ := hshows.complete name slot hslot
    · have hfound : lookupCapture 0 name w.fields = .capture k slot := by
        refine lookupCapture_eq_capture.2 ⟨k, shown, hk, hshown, hname, fun j hj inner hat => ?_⟩
        obtain ⟨source, hsource, hshows⟩ := h.getElem?_scopes hat
        rw [Option.eq_none_iff_forall_ne_some]
        intro other hother
        have hnone := hinner j hj source hsource
        rw [hshows.sound name other hother] at hnone
        cases hnone
      rw [Mention.IsBound, meaning?, h.declared, hlocal, Option.map_none]
      simp only [hfound]
    · exact absurd ⟨k, slot, key, shown, rfl, hkey, hshown, hreplaced⟩ hnot

end Written.Agrees

end

end TextGrammar
