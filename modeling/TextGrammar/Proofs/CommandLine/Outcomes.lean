import TextGrammar.CommandLine

/-! # Outcomes of the program

What the program does with some settings is decided by the paths, by the texts that they lead to,
by the grammar that the first text compiles to, and by the value that it finds in the second. -/

namespace TextGrammar.CommandLine
variable {filter : Log.Filter} {files : Files} {s : Settings} {g : Grammar} {v : Value}

/-- A file is read as a text if its bytes are the UTF-8 form of the text. -/
theorem readText_eq_ok {path text : String} :
    readText files path = .ok text ↔ files path = .ok text.toUTF8 := by
  rw [readText]
  cases files path with
  | error fault => constructor <;> rintro ⟨⟩
  | ok bytes =>
    simp only [bind, Except.bind, String.fromUTF8?]
    by_cases hvalid : bytes.IsValidUTF8
    · rw [dif_pos hvalid]
      constructor
      · rintro ⟨⟩
        rfl
      · rintro ⟨⟩
        rfl
    · rw [dif_neg hvalid]
      refine iff_of_false (by rintro ⟨⟩) fun heq => hvalid ?_
      rw [Except.ok.inj heq]
      exact text.isValidUTF8

/-- The program comes to a grammar and goes on to a path for the input: there are two paths, and
the first one leads to the UTF-8 form of a source that compiles to the grammar. -/
inductive Prepares (files : Files) (s : Settings) : Grammar → String → Prop
  | intro {grammarPath inputPath source : String} {g : Grammar}
    (hpaths : s.files = [grammarPath, inputPath])
    (hsource : files grammarPath = .ok source.toUTF8) (hcompile : compile source = .ok g) :
    Prepares files s g inputPath

/-- The program computes a value with a grammar: the second path leads to the UTF-8 form of an
input on which the grammar runs to that value. -/
inductive Computes (files : Files) (s : Settings) : Grammar → Value → Prop
  | intro {inputPath input : String} {g : Grammar} {v : Value}
    (hgrammar : Prepares files s g inputPath) (hinput : files inputPath = .ok input.toUTF8)
    (hrun : g.run s.options input = .ok v) : Computes files s g v

def shown (s : Settings) (g : Grammar) : String := if s.printGrammar then g.display ++ "\n" else ""

/-- An outcome shows a value: the program succeeds, and the value comes behind what was shown. -/
structure Outcome.Shows (o : Outcome) (front : String) (v : Value) : Prop where
  success : o.success = true
  output : o.output = front ++ Json.text .pretty v ++ "\n"

/-- An outcome shows nothing more: the program fails behind what was shown. -/
structure Outcome.Stops (o : Outcome) (front : String) : Prop where
  failure : o.success = false
  output : o.output = front

theorem Failure.outcome_stops (output log : String) (f : Failure) :
    (f.outcome output log).Stops output := ⟨rfl, rfl⟩

theorem runInput_shows {path input log : String} (hinput : files path = .ok input.toUTF8)
    (hrun : g.run s.options input = .ok v) :
    (runInput filter files s g path log).Shows (shown s g) v := by
  rw [Grammar.run] at hrun
  rw [runInput, readText_eq_ok.2 hinput]
  dsimp only
  rw [hrun]
  exact ⟨rfl, rfl⟩

theorem runInput_stops {path log : String}
    (h : ∀ input v, files path = .ok input.toUTF8 → g.run s.options input ≠ .ok v) :
    (runInput filter files s g path log).Stops (shown s g) := by
  rw [runInput]
  cases hinput : readText files path with
  | error fault => exact Failure.outcome_stops _ _ _
  | ok input =>
    have hrun : ∀ v, (g.runLogged s.options input).1 ≠ .ok v :=
      fun v => h input v (readText_eq_ok.1 hinput)
    dsimp only
    split
    · exact Failure.outcome_stops _ _ _
    · rename_i v heq
      exact absurd heq (hrun v)

theorem perform_shows (h : Computes files s g v) :
    (perform filter files s).Shows (shown s g) v := by
  obtain ⟨⟨hpaths, hsource, hcompile⟩, hinput, hrun⟩ := h
  rw [compile] at hcompile
  rw [perform, hpaths]
  dsimp only
  rw [readText_eq_ok.2 hsource]
  dsimp only
  rw [hcompile]
  exact runInput_shows hinput hrun

/-- A program that computes no value has shown nothing, or the grammar that it was asked for. -/
theorem perform_stops (h : ∀ g v, ¬Computes files s g v) :
    ∃ front, (perform filter files s).Stops front ∧
      (front = "" ∨ ∃ g path, Prepares files s g path ∧ front = shown s g) := by
  rw [perform]
  split
  · rename_i grammarPath inputPath hpaths
    cases hsource : readText files grammarPath with
    | error fault => exact ⟨"", Failure.outcome_stops _ _ _, .inl rfl⟩
    | ok source =>
      cases hcompile : (compileLogged source).1 with
      | error e =>
        dsimp only
        rw [hcompile]
        exact ⟨"", Failure.outcome_stops _ _ _, .inl rfl⟩
      | ok g =>
        have hgrammar : Prepares files s g inputPath :=
          .intro hpaths (readText_eq_ok.1 hsource) hcompile
        dsimp only
        rw [hcompile]
        exact ⟨shown s g, runInput_stops fun input v hinput hrun =>
          h g v (.intro hgrammar hinput hrun), .inr ⟨g, inputPath, hgrammar, rfl⟩⟩
  · exact ⟨"", Failure.outcome_stops _ _ _, .inl rfl⟩

end TextGrammar.CommandLine
