import TextGrammar.Proofs.CommandLine.Entries
import TextGrammar.Proofs.CommandLine.Outcomes
import TextGrammar.Proofs.Compile.Clean

/-! # Scanning command lines

The first argument that stops the scan decides what the program does. Where nothing stops it, the
program depends on the last rule, the last limit, whether the grammar is asked for, and the paths
in their order; and it succeeds just if it computes a value, which it shows last. -/

namespace TextGrammar.CommandLine

/-- Two rows of entries agree: they give the same rule last and the same limit last, both ask for
the grammar or neither does, and they give the same paths in the same order. -/
structure Agree (entries others : List Entry) : Prop where
  rule : (entries.filterMap Entry.rule?).getLast? = (others.filterMap Entry.rule?).getLast?
  limit : (entries.filterMap Entry.limit?).getLast? = (others.filterMap Entry.limit?).getLast?
  grammar : entries.any Entry.asksForGrammar = others.any Entry.asksForGrammar
  paths : entries.filterMap Entry.path? = others.filterMap Entry.path?

theorem Agree.settings_eq {entries others : List Entry} (h : Agree entries others) :
    settings entries = settings others := by
  rw [settings, settings, h.rule, h.limit, h.grammar, h.paths]

/-- The program does what a row of entries asks for. -/
theorem run_entries (filter : Log.Filter) (files : Files) (entries : List Entry) :
    run filter files (arguments entries) = perform filter files (settings entries) := by
  have hscan := scan_entries .initial entries []
  rw [List.append_nil, foldl_take] at hscan
  rw [run, hscan]
  rfl

/-- At a stop the program reads no file and does what the stop alone asks for. -/
theorem run_stop (filter : Log.Filter) (files : Files) (entries : List Entry) (stop : Stop)
    (rest : List String) :
    run filter files (arguments entries ++ stop.arguments rest) = stop.outcome := by
  rw [run, scan_entries, scan_stop]
  cases stop <;> rfl

theorem Outcome.status_eq_zero_iff (o : Outcome) : o.status = 0 ↔ o.success = true := by
  rw [status]
  split <;> simp_all

/-- Every command line is a row of entries, up to its end or up to a stop. What stands in front of
a stop and behind it does not matter, and neither does any file. Rows of entries that agree lead to
the same outcome. The exit status of a row is zero just if a value is computed: there are two
paths, both lead to texts in UTF-8, the first text compiles, and the second one runs to the value.
This is then shown last; otherwise nothing is shown but the grammar, if it was asked for. -/
theorem argument_scanning (filter : Log.Filter) :
    (∀ line, ∃ entries, line = arguments entries ∨
      ∃ (stop : Stop) (rest : List String), line = arguments entries ++ stop.arguments rest) ∧
    (∀ files entries (stop : Stop) rest,
      run filter files (arguments entries ++ stop.arguments rest) = stop.outcome) ∧
    (∀ files entries others, Agree entries others →
      run filter files (arguments entries) = run filter files (arguments others)) ∧
    ∀ files entries,
      ((run filter files (arguments entries)).status = 0 ↔
        ∃ g v, Computes files (settings entries) g v) ∧
      (∀ g v, Computes files (settings entries) g v →
        (run filter files (arguments entries)).output =
          shown (settings entries) g ++ Json.text .pretty v ++ "\n") ∧
      ((¬∃ g v, Computes files (settings entries) g v) →
        (run filter files (arguments entries)).output = "" ∨
          ∃ g path, Prepares files (settings entries) g path ∧
            (run filter files (arguments entries)).output = shown (settings entries) g) := by
  refine ⟨laid, run_stop filter, fun files entries others h => ?_,
    fun files entries => ?_⟩
  · rw [run_entries, run_entries, h.settings_eq]
  rw [run_entries, Outcome.status_eq_zero_iff]
  refine ⟨⟨fun hsuccess => ?_, fun ⟨g, v, h⟩ => (perform_shows h).success⟩,
    fun g v h => (perform_shows h).output, fun hnone => ?_⟩
  · by_contra hnone
    obtain ⟨front, hstops, -⟩ := perform_stops fun g v h => hnone ⟨g, v, h⟩
    exact Bool.false_ne_true (hstops.failure.symm.trans hsuccess)
  · obtain ⟨front, hstops, hfront⟩ := perform_stops fun g v h => hnone ⟨g, v, h⟩
    rw [hstops.output]
    exact hfront

def letterSource : String :=
  "meta \x7b letter := \"x\"; word := repeat letter; --- word \x7d"

def letterFiles : Files := fun path =>
  if path = "grammar" then .ok letterSource.toUTF8
  else if path = "input" then .ok "x".toUTF8
  else .error .missing

def mixedEntries : List Entry :=
  [.rule "word", .file "grammar" (by decide) (by decide), .grammar, .rule "letter",
    .file "input" (by decide) (by decide), .grammar]

def plainEntries : List Entry :=
  [.file "grammar" (by decide) (by decide), .file "input" (by decide) (by decide), .rule "letter",
    .grammar]

theorem letters_computed : ∃ g v, Computes letterFiles (settings plainEntries) g v := by
  have hchecked : (compile letterSource).toOption.any
      (fun g => (g.run (settings plainEntries).options "x").isOk) = true := by decide +kernel
  obtain ⟨g, hcompile, hrun⟩ := Compile.exists_compile_eq_ok_of_any hchecked
  cases hvalue : g.run (settings plainEntries).options "x" with
  | error e =>
    rw [hvalue] at hrun
    cases hrun
  | ok v => exact ⟨g, v, .intro (.intro rfl rfl hcompile) rfl hvalue⟩

theorem argument_scanning_letters :
    Agree mixedEntries plainEntries ∧
      run none letterFiles (arguments mixedEntries) =
        run none letterFiles (arguments plainEntries) ∧
      ∃ g v, Computes letterFiles (settings plainEntries) g v ∧
        (run none letterFiles (arguments plainEntries)).status = 0 ∧
        (run none letterFiles (arguments plainEntries)).output =
          shown (settings plainEntries) g ++ Json.text .pretty v ++ "\n" := by
  obtain ⟨-, -, hagree, hoptions⟩ := argument_scanning none
  obtain ⟨hstatus, hvalue, -⟩ := hoptions letterFiles plainEntries
  have hsame : Agree mixedEntries plainEntries := ⟨rfl, rfl, rfl, rfl⟩
  obtain ⟨g, v, h⟩ := letters_computed
  exact ⟨hsame, hagree letterFiles _ _ hsame, g, v, h, hstatus.2 ⟨g, v, h⟩, hvalue g v h⟩

end TextGrammar.CommandLine
