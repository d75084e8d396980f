import Mathlib.Data.List.Induction
import TextGrammar.CommandLine

/-! # Entries of command lines

A command line is a row of entries: options with their values, and paths. It is taken entry by
entry up to its end, or up to the first argument that stops the scan. What the entries ask for
together is read off the row without scanning it. -/

namespace TextGrammar.CommandLine

/-- An argument that starts as options do. -/
def IsOption (argument : String) : Prop := ['-', '-'] <+: argument.toList

instance (argument : String) : Decidable (IsOption argument) :=
  inferInstanceAs (Decidable (['-', '-'] <+: argument.toList))

def optionNames : List String := ["--grammar", "--rule", "--max-depth"]

/-- A part of a command line that can be understood. -/
inductive Entry where
  | grammar
  | rule (name : String)
  | depth (number : String) (limit : Nat) (h : Number.readCount number.toList = .ok limit)
  | file (path : String) (hhelp : path ≠ "-h") (hoption : ¬IsOption path)

def Entry.arguments : Entry → List String
  | .grammar => ["--grammar"]
  | .rule name => ["--rule", name]
  | .depth number _ _ => ["--max-depth", number]
  | .file path _ _ => [path]

/-- What stops the scan of a command line. -/
inductive Stop where
  | help (argument : String) (h : argument = "-h" ∨ argument = "--help")
  | unknown (argument : String) (hoption : IsOption argument)
    (h : argument ∉ "--help" :: optionNames)
  | noRuleName
  | noDepth
  | badDepth (number : String) (fault : Number.CountFault)
      (h : Number.readCount number.toList = .error fault)

/-- The arguments from a stop on. Nothing follows an option that lacks its value. -/
def Stop.arguments : Stop → List String → List String
  | .help argument _, rest => argument :: rest
  | .unknown argument _ _, rest => argument :: rest
  | .noRuleName, _ => ["--rule"]
  | .noDepth, _ => ["--max-depth"]
  | .badDepth number _ _, rest => "--max-depth" :: number :: rest

def Stop.request : Stop → Request
  | .help _ _ => .help
  | .unknown argument _ _ => .failed (.unknownOption argument)
  | .noRuleName => .failed .noRuleName
  | .noDepth => .failed .noDepth
  | .badDepth _ fault _ => .failed (.badDepth fault)

def Stop.outcome : Stop → Outcome
  | .help _ _ => ⟨true, usage ++ "\n", ""⟩
  | .unknown argument _ _ => (Failure.unknownOption argument).outcome "" ""
  | .noRuleName => Failure.noRuleName.outcome "" ""
  | .noDepth => Failure.noDepth.outcome "" ""
  | .badDepth _ fault _ => (Failure.badDepth fault).outcome "" ""

def arguments (entries : List Entry) : List String := entries.flatMap Entry.arguments

def Settings.take (s : Settings) : Entry → Settings
  | .grammar => { s with printGrammar := true }
  | .rule name => { s with options := ⟨s.options.maxDepth, some name⟩ }
  | .depth _ limit _ => { s with options := ⟨limit, s.options.start⟩ }
  | .file path _ _ => { s with files := s.files ++ [path] }

/-- An argument that is none of the options asks for help, is refused, or is a path. -/
theorem scan_argument (s : Settings) {argument : String} (h : argument ∉ optionNames)
    (rest : List String) :
    scan s (argument :: rest) =
      if argument = "-h" ∨ argument = "--help" then .help
      else if ['-', '-'].isPrefixOf argument.toList then .failed (.unknownOption argument)
      else scan { s with files := s.files ++ [argument] } rest := by
  simp only [optionNames, List.mem_cons, List.not_mem_nil, or_false, not_or] at h
  obtain ⟨hgrammar, hrule, hdepth⟩ := h
  rw [scan]
  · exact hgrammar
  · exact fun hname _ => hrule hname
  · exact fun _ _ hname _ => hrule hname
  · exact fun hname _ => hdepth hname
  · exact fun _ _ hname _ => hdepth hname

theorem isOption_of_mem {argument : String} (h : argument ∈ "--help" :: optionNames) :
    IsOption argument := by
  simp only [optionNames, List.mem_cons, List.not_mem_nil, or_false] at h
  obtain rfl | rfl | rfl | rfl := h <;> decide

theorem scan_entry (s : Settings) (entry : Entry) (rest : List String) :
    scan s (entry.arguments ++ rest) = scan (s.take entry) rest := by
  cases entry with
  | grammar => rfl
  | rule name => rfl
  | depth number limit h =>
    change scan s ("--max-depth" :: number :: rest) = _
    rw [scan, h]
    rfl
  | file path hhelp hoption =>
    have hname : path ∉ "--help" :: optionNames := fun hmem => hoption (isOption_of_mem hmem)
    rw [List.mem_cons, not_or] at hname
    change scan s (path :: rest) = _
    rw [scan_argument s hname.2, if_neg (not_or.2 ⟨hhelp, hname.1⟩),
      if_neg fun hprefix => hoption (List.isPrefixOf_iff_prefix.1 hprefix)]
    rfl

theorem scan_entries (s : Settings) (entries : List Entry) (rest : List String) :
    scan s (arguments entries ++ rest) = scan (entries.foldl Settings.take s) rest := by
  induction entries generalizing s with
  | nil => rfl
  | cons entry entries ih =>
    rw [arguments, List.flatMap_cons, List.append_assoc, scan_entry]
    exact ih (s.take entry)

theorem scan_stop (s : Settings) (stop : Stop) (rest : List String) :
    scan s (stop.arguments rest) = stop.request := by
  cases stop with
  | help argument h =>
    have hname : argument ∉ optionNames := by
      obtain rfl | rfl := h <;> decide
    exact (scan_argument s hname rest).trans (if_pos h)
  | unknown argument hoption h =>
    rw [List.mem_cons, not_or] at h
    have hhelp : ¬(argument = "-h" ∨ argument = "--help") := by
      rintro (rfl | rfl)
      · exact absurd hoption (by decide)
      · exact h.1 rfl
    change scan s (argument :: rest) = _
    rw [scan_argument s h.2, if_neg hhelp, if_pos (List.isPrefixOf_iff_prefix.2 hoption)]
    rfl
  | noRuleName => rfl
  | noDepth => rfl
  | badDepth number fault h =>
    change scan s ("--max-depth" :: number :: rest) = _
    rw [scan, h]
    rfl

/-- A command line is a row of entries, up to its end or up to a stop. -/
def Laid (line : List String) : Prop :=
  ∃ entries, line = arguments entries ∨
    ∃ (stop : Stop) (rest : List String), line = arguments entries ++ stop.arguments rest

/-- An entry in front of a row makes a longer row. -/
theorem Laid.cons (entry : Entry) {rest : List String} (h : Laid rest) :
    Laid (entry.arguments ++ rest) := by
  obtain ⟨entries, rfl | ⟨stop, more, rfl⟩⟩ := h
  · exact ⟨entry :: entries, .inl rfl⟩
  · exact ⟨entry :: entries, .inr ⟨stop, more, (List.append_assoc ..).symm⟩⟩

theorem laid_stop (stop : Stop) (rest : List String) : Laid (stop.arguments rest) :=
  ⟨[], .inr ⟨stop, rest, rfl⟩⟩

/-- Every command line is one. -/
theorem laid (line : List String) : Laid line := by
  fun_induction scan .initial line with
  | case1 => exact ⟨[], .inl rfl⟩
  | case2 s rest ih => exact Laid.cons .grammar ih
  | case3 => exact laid_stop .noRuleName []
  | case4 s name rest ih => exact Laid.cons (.rule name) ih
  | case5 => exact laid_stop .noDepth []
  | case6 s number rest limit h ih => exact Laid.cons (.depth number limit h) ih
  | case7 s number rest fault h => exact laid_stop (.badDepth number fault h) rest
  | case8 s argument rest _ _ _ _ _ h => exact laid_stop (.help argument h) rest
  | case9 s argument rest hgrammar hrule hrule' hdepth hdepth' hhelp hprefix =>
    refine laid_stop (.unknown argument (List.isPrefixOf_iff_prefix.1 hprefix) ?_) rest
    simp only [optionNames, List.mem_cons, List.not_mem_nil, or_false, not_or]
    refine ⟨(not_or.1 hhelp).2, hgrammar, fun hname => ?_, fun hname => ?_⟩
    · cases rest with
      | nil => exact hrule hname rfl
      | cons name rest => exact hrule' name rest hname rfl
    · cases rest with
      | nil => exact hdepth hname rfl
      | cons number rest => exact hdepth' number rest hname rfl
  | case10 s argument rest _ _ _ _ _ hhelp hprefix ih =>
    exact Laid.cons (.file argument (not_or.1 hhelp).1
      fun hoption => hprefix (List.isPrefixOf_iff_prefix.2 hoption)) ih

def Entry.rule? : Entry → Option String
  | .rule name => some name
  | _ => none

def Entry.limit? : Entry → Option Nat
  | .depth _ limit _ => some limit
  | _ => none

def Entry.path? : Entry → Option String
  | .file path _ _ => some path
  | _ => none

def Entry.asksForGrammar : Entry → Bool
  | .grammar => true
  | _ => false

/-- The settings that a row of entries asks for: the last rule, the last limit, whether the grammar
is printed, and the paths in order. -/
def settings (entries : List Entry) : Settings where
  options :=
    { maxDepth := (entries.filterMap Entry.limit?).getLast?.getD Settings.initial.options.maxDepth
      start := (entries.filterMap Entry.rule?).getLast? }
  printGrammar := entries.any Entry.asksForGrammar
  files := entries.filterMap Entry.path?

theorem settings_concat (entries : List Entry) (entry : Entry) :
    settings (entries ++ [entry]) = (settings entries).take entry := by
  cases entry <;>
    simp [settings, Settings.take, Entry.limit?, Entry.rule?, Entry.path?, Entry.asksForGrammar,
      List.filterMap_append]

/-- Taking the entries one after the other comes to the settings that they ask for together. -/
theorem foldl_take (entries : List Entry) :
    entries.foldl Settings.take .initial = settings entries := by
  induction entries using List.reverseRecOn with
  | nil => rfl
  | append_singleton entries entry ih =>
    rw [List.foldl_append, ih]
    exact (settings_concat entries entry).symm

end TextGrammar.CommandLine
