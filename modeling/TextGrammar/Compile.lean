import TextGrammar.Compile.LeftRecursion
import TextGrammar.Compile.Lowering
import TextGrammar.Log
import TextGrammar.Source.Parser

/-! # Compiling grammars

A source is parsed, its names are resolved, and left recursion is looked for. A source that does
not parse is refused at its first fault; of one that parses, everything found is reported. -/

namespace TextGrammar

/-- Why a grammar source is refused. -/
inductive GrammarError where
  | malformed (location : Location) (cause : Source.Cause)
  | unsound (diagnostics : List Diagnostic)
deriving DecidableEq, Repr

def GrammarError.message : GrammarError → String
  | .malformed location cause =>
    "syntax error at " ++ toString location.line ++ ":" ++ toString location.column ++ ": " ++
      cause.message
  | .unsound diagnostics => Diagnostic.render diagnostics

namespace Compile

/-- Resolves and checks a parsed source: its rules, their nullable ones, and all findings. -/
def analyse (file : Source.File) : Checked (Lowered × List Nat) := do
  let lowered ← lower file
  let known := nullableRules lowered.rules
  ⟨(), leftRecursionFindings lowered.rules lowered.spans known⟩
  return (lowered, known)

/-- The grammar of a checked source. -/
def grammar? (checked : Checked (Lowered × List Nat)) : Option Grammar :=
  if checked.findings.isEmpty then
    match checked.result.1.start with
    | some start => Grammar.ofRules? checked.result.1.rules start
    | none => none
  else none

/-- The events for the repetitions in a table that can match empty input, rule by rule. -/
def repetitionEvents (rules : List Rule) (known : List Nat) : List Log.Event :=
  rules.flatMap fun r => (emptyRepetitions known r.body).map fun _ => .emptyRepetition r.name

def compileFile (source : List Char) (file : Source.File) :
    Except GrammarError Grammar × List Log.Event :=
  let checked := analyse file
  match grammar? checked with
  | some g =>
    (.ok g, repetitionEvents g.rules checked.result.2 ++ [.compiled (g.nameOf g.start)])
  | none =>
    (.error (.unsound (Diagnostic.ofReports source (checked.findings.map Finding.report))),
      [.refused checked.findings.length])

end Compile

/-- Compiles a grammar source, and says what is logged on the way. -/
def compileLogged (source : String) : Except GrammarError Grammar × List Log.Event :=
  let text := source.toList
  match Source.parseFile text with
  | .error fault =>
    (.error (.malformed ((LineMap.ofText text).location fault.span.start) fault.cause), [])
  | .ok file =>
    let (outcome, events) := Compile.compileFile text file
    (outcome, .parsed file.rules.length file.starts.length :: events)

/-- Compiles a grammar source. -/
def compile (source : String) : Except GrammarError Grammar := (compileLogged source).1

end TextGrammar
