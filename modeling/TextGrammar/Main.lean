import TextGrammar.CommandLine

/-! # The program -/

open TextGrammar

/-- What is wrong with a file that cannot be read; the code tells the two cases of a path that
leads to something else than it should apart. -/
def fileFault (e : IO.Error) : FileFault :=
  match e with
  | .permissionDenied .. => .denied
  | .invalidArgument .. => .nameTooLong
  | .inappropriateType _ code _ => if code = 21 then .directory else .notDirectory
  | _ => .missing

def readBytes (path : String) : IO (Except FileFault ByteArray) := do
  try
    return .ok (← IO.FS.readBinFile path)
  catch e => return .error (fileFault e)

def main (arguments : List String) : IO UInt32 := do
  let filter := CommandLine.filterOf (← IO.getEnv "RUST_LOG")
  let paths :=
    match CommandLine.scan .initial arguments with
    | .ready s => s.files
    | _ => []
  let contents ← paths.mapM fun path => return (path, ← readBytes path)
  let files := fun path => (contents.lookup path).getD (.error .missing)
  let outcome := CommandLine.run filter files arguments
  IO.eprint outcome.errors
  IO.print outcome.output
  return outcome.status.toUInt32
