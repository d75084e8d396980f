import TextGrammar.LineMap
import TextGrammar.Span

/-! # Diagnostics

Reports on a source are collected in the order in which they arise. They are shown as
diagnostics: located, in the order of the source, reports at one place in the order in which they
arose. -/

namespace TextGrammar

/-- A message about a part of a source. -/
structure Report where
  span : Span
  message : String
deriving DecidableEq, Repr

/-- A message with the location where its part of the source starts. -/
structure Diagnostic where
  location : Location
  message : String
deriving DecidableEq, Repr

namespace Diagnostic

def ofReports (source : List Char) (reports : List Report) : List Diagnostic :=
  let map := LineMap.ofText source
  (reports.mergeSort fun a b => a.span.start ≤ b.span.start).map fun r =>
    ⟨map.location r.span.start, r.message⟩

def line (d : Diagnostic) : String :=
  "\n  " ++ toString d.location.line ++ ":" ++ toString d.location.column ++ ": " ++ d.message

def render (diagnostics : List Diagnostic) : String :=
  "grammar has " ++ toString diagnostics.length ++ " error(s)" ++
    String.join (diagnostics.map line)

end Diagnostic

end TextGrammar
