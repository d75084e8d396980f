import TextGrammar.Diagnostic

/-! # Findings in a parsed grammar

The checks of a parsed grammar go through all of it and collect what they find. A grammar is
compiled only if nothing was found. -/

namespace TextGrammar

/-- What can be wrong with a grammar that parses. -/
inductive Problem where
  | reservedRuleName (name : String)
  | duplicateRuleName (name : String)
  | missingSeparator
  | extraSeparator
  | missingStart
  | extraStart
  | unknownStart (name : String)
  | startIsNoName
  | unknownRule (name : String)
  | misplacedRename
  | duplicateBinding (name : String)
  | unboundName (name : String)
  | duplicateRecordField (name : String)
  | assignedImmutable (name : String)
  | assignedCapture (name : String)
  | strayBreak
  | leftRecursion (path : List String)
deriving DecidableEq, Repr

/-- Names with arrows between them. There is none behind an empty name at the front. -/
def pathText (names : List String) : String :=
  names.foldl (fun path name => if path = "" then name else path ++ " -> " ++ name) ""

def Problem.message : Problem → String
  | .reservedRuleName name => "Rule name `" ++ name ++ "` is reserved for a leaf type"
  | .duplicateRuleName name => "Duplicate rule name `" ++ name ++ "`"
  | .missingSeparator => "Missing `---` separator before the start rule"
  | .extraSeparator => "Duplicate `---` separator"
  | .missingStart => "No start rule designated after `---`"
  | .extraStart => "More than one start rule designated"
  | .unknownStart name => "Unknown start rule `" ++ name ++ "`"
  | .startIsNoName => "The start designation must be a rule name"
  | .unknownRule name => "Unknown rule `" ++ name ++ "`"
  | .misplacedRename => "An override name can only follow a rule reference"
  | .duplicateBinding name => "Duplicate binding `" ++ name ++ "` in sequence"
  | .unboundName name => "Unbound name `" ++ name ++ "`"
  | .duplicateRecordField name => "Duplicate field `" ++ name ++ "` in record"
  | .assignedImmutable name => "Cannot assign to `" ++ name ++ "`, it is not declared `mut`"
  | .assignedCapture name => "Cannot assign to capture `" ++ name ++ "`"
  | .strayBreak => "`break` outside of a loop"
  | .leftRecursion path => "Left recursion: " ++ pathText path

/-- A problem and the part of the source that has it. -/
structure Finding where
  span : Span
  problem : Problem
deriving DecidableEq, Repr

def Finding.report (f : Finding) : Report := ⟨f.span, f.problem.message⟩

/-- A result together with what was found on the way to it, in order. -/
structure Checked (α : Type) where
  result : α
  findings : List Finding

namespace Checked

instance : Monad Checked where
  pure x := ⟨x, []⟩
  bind x f := ⟨(f x.result).result, x.findings ++ (f x.result).findings⟩

def report (span : Span) (problem : Problem) : Checked Unit := ⟨(), [⟨span, problem⟩]⟩

@[simp] theorem pure_result {α : Type} (x : α) : (pure x : Checked α).result = x := rfl

@[simp] theorem pure_findings {α : Type} (x : α) : (pure x : Checked α).findings = [] := rfl

@[simp] theorem bind_result {α β : Type} (x : Checked α) (f : α → Checked β) :
    (x >>= f).result = (f x.result).result := rfl

@[simp] theorem bind_findings {α β : Type} (x : Checked α) (f : α → Checked β) :
    (x >>= f).findings = x.findings ++ (f x.result).findings := rfl

end Checked

end TextGrammar
