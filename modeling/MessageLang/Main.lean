import MessageLang.CommandLine.Run
/-!
# The command line program

Reads the file and the settings, carries out the command line, and prints what comes of it.
-/
namespace MessageLang.Process

/-- The content of a file. -/
def readContent (path : String) : IO FileContent := do
  try
    return .ofBytes (← IO.FS.readBinFile path)
  catch _ => return .missing

/-- The settings of this process. -/
def readSettings : IO ProcessSettings := do
  let get (name : String) : IO String := return (← IO.getEnv name).getD ""
  return ⟨← get "NO_COLOR", ← get "SEXP_MESSAGE_COLOR", ← get "SEXP_MESSAGE_DUMP_AST"⟩

/-- Prints the output of a command, and writes the dump that it asks for. -/
def deliver (output : CommandOutput) : IO UInt32 := do
  if let some (name, text) := output.dump then
    IO.FS.createDirAll "ast_dumps"
    IO.FS.writeFile ("ast_dumps/" ++ name) text
  IO.print output.out
  IO.eprint output.err
  return output.status.toUInt32

/-- Why a command ends without an answer of its own. -/
def explain : Abort → String
  | .undecodable => "the source is not encoded in UTF-8"
  | .noInput => "an input has no value"
  | .unreported => "the source cannot be read"
  | .defect d => d.message

def usage : String :=
  "usage: sexp-message [-h] [--expand] [--dump-ast] [--input NAME=JSON] [--verbose] file\n"

/-- Carries out a command line. -/
def carryOut (args : List String) : IO UInt32 := do
  match Arguments.parse args with
  | .error .help => IO.print usage; return 0
  | .error .misuse => IO.eprint usage; return 2
  | .ok request =>
    let directory := resolvePath [] (toString (← IO.currentDir))
    let path := "/" ++ "/".intercalate (resolvePath directory request.file)
    match request.run (← readSettings) path (← readContent path) with
    | .ok output => deliver output
    | .error abort => IO.eprintln (explain abort); return 1

end MessageLang.Process

def main (args : List String) : IO UInt32 := MessageLang.Process.carryOut args
