import TextGrammar.Compile
import TextGrammar.Grammar.Display
import TextGrammar.Run
import TextGrammar.Value.Json

/-! # The command line

The program compiles a grammar file, runs it on an input file, and prints the value as JSON. The
arguments are scanned from the front; the first one that asks for help or cannot be understood
decides alone, and no file is read then. -/

namespace TextGrammar

inductive FileFault where
  | missing
  | denied
  | directory
  | notDirectory
  | nameTooLong
  | notText
deriving DecidableEq, Repr

def FileFault.message : FileFault → String
  | .missing => "No such file or directory (os error 2)"
  | .denied => "Permission denied (os error 13)"
  | .directory => "Is a directory (os error 21)"
  | .notDirectory => "Not a directory (os error 20)"
  | .nameTooLong => "File name too long (os error 36)"
  | .notText => "stream did not contain valid UTF-8"

namespace CommandLine

def usage : String :=
  "usage: metagram <grammar> <input> [--rule NAME] [--max-depth N] [--grammar]"

/-- What the arguments ask for: the options of the run, whether the grammar is printed, and the
files. -/
structure Settings where
  options : RunOptions
  printGrammar : Bool
  files : List String

def Settings.initial : Settings := ⟨⟨256, none⟩, false, []⟩

/-- Why the program fails. -/
inductive Failure where
  | noRuleName
  | noDepth
  | badDepth (fault : Number.CountFault)
  | unknownOption (argument : String)
  | wrongFiles
  | unreadable (path : String) (fault : FileFault)
  | refused (path : String) (error : GrammarError)
  | unmatched (path : String) (error : RunError)
deriving DecidableEq, Repr

/-- A run error with its causes: the fault of an action is a part of the message for the error,
and comes once more as its cause. -/
def causes (e : RunError) : String :=
  match e with
  | .action _ fault => e.message ++ ": " ++ fault.message
  | _ => e.message

def Failure.message : Failure → String
  | .noRuleName => "Expected a rule name after --rule"
  | .noDepth => "Expected a number after --max-depth"
  | .badDepth fault => "Invalid --max-depth: " ++ fault.message
  | .unknownOption argument => "Unknown option `" ++ argument ++ "`\n" ++ usage
  | .wrongFiles => "Expected a grammar and an input file\n" ++ usage
  | .unreadable path fault => "Failed to read `" ++ path ++ "`: " ++ fault.message
  | .refused path error => "Failed to compile `" ++ path ++ "`: " ++ error.message
  | .unmatched path error => "Failed to parse `" ++ path ++ "`: " ++ causes error

inductive Request where
  | help
  | failed (failure : Failure)
  | ready (settings : Settings)

/-- Scans arguments, with the settings of those before them. The argument after an option is its
value, whatever it looks like. -/
def scan (s : Settings) : List String → Request
  | [] => .ready s
  | "--grammar" :: rest => scan { s with printGrammar := true } rest
  | ["--rule"] => .failed .noRuleName
  | "--rule" :: name :: rest => scan { s with options := ⟨s.options.maxDepth, some name⟩ } rest
  | ["--max-depth"] => .failed .noDepth
  | "--max-depth" :: number :: rest =>
    match Number.readCount number.toList with
    | .ok n => scan { s with options := ⟨n, s.options.start⟩ } rest
    | .error fault => .failed (.badDepth fault)
  | argument :: rest =>
    if argument = "-h" ∨ argument = "--help" then .help
    else if ['-', '-'].isPrefixOf argument.toList then .failed (.unknownOption argument)
    else scan { s with files := s.files ++ [argument] } rest

/-- What the program leaves behind: whether it succeeded, and what it wrote. -/
structure Outcome where
  success : Bool
  output : String
  errors : String
deriving DecidableEq, Repr

def Outcome.status (o : Outcome) : Nat := if o.success then 0 else 1

def logLines (filter : Log.Filter) (events : List Log.Event) : String :=
  String.join ((filter.select events).map fun e =>
    " [" ++ e.level.name ++ "] " ++ e.message ++ "\n")

/-- The outcome of a failure after some output and some lines of the log. -/
def Failure.outcome (output log : String) (f : Failure) : Outcome :=
  ⟨false, output, log ++ "error: " ++ f.message ++ "\n"⟩

/-- What reading the file at a path comes to. -/
abbrev Files := String → Except FileFault ByteArray

def readText (files : Files) (path : String) : Except FileFault String := do
  match String.fromUTF8? (← files path) with
  | some text => return text
  | none => throw .notText

def runInput (filter : Log.Filter) (files : Files) (s : Settings) (g : Grammar) (path : String)
    (log : String) : Outcome :=
  let output := if s.printGrammar then g.display ++ "\n" else ""
  match readText files path with
  | .error fault => Failure.outcome output log (.unreadable path fault)
  | .ok input =>
    let (result, events) := g.runLogged s.options input
    let log := log ++ logLines filter events
    match result with
    | .error e => Failure.outcome output log (.unmatched path e)
    | .ok v => ⟨true, output ++ Json.text .pretty v ++ "\n", log⟩

def perform (filter : Log.Filter) (files : Files) (s : Settings) : Outcome :=
  match s.files with
  | [grammarPath, inputPath] =>
    match readText files grammarPath with
    | .error fault => Failure.outcome "" "" (.unreadable grammarPath fault)
    | .ok source =>
      let (compiled, events) := compileLogged source
      let log := logLines filter events
      match compiled with
      | .error e => Failure.outcome "" log (.refused grammarPath e)
      | .ok g =>
        runInput filter files s g inputPath (log ++ logLines filter [.ready g.rules.length])
  | _ => Failure.outcome "" "" .wrongFiles

/-- The filter that the environment asks for; warnings and graver messages, if it asks for
none that is known. -/
def filterOf (setting : Option String) : Log.Filter :=
  (setting.bind Log.Filter.ofText?).getD (some .warn)

/-- The outcome of the program for its arguments, its logging filter, and the files there are. -/
def run (filter : Log.Filter) (files : Files) (arguments : List String) : Outcome :=
  match scan .initial arguments with
  | .help => ⟨true, usage ++ "\n", ""⟩
  | .failed failure => failure.outcome "" ""
  | .ready s => perform filter files s

end CommandLine

end TextGrammar
