import MessageLang.CommandLine.Arguments
import MessageLang.Compilation
import MessageLang.Diagnostic.Render
import MessageLang.Dump
import MessageLang.Evaluation.Eval
import MessageLang.Json
/-!
# Carrying out a command line

`Arguments.run` says what a command line prints and with which status it ends, given the content of
its file and the settings of the process. A program's value is printed unless it is the empty
option; the expanded program can be shown instead, as text or as a dump of its tree.
-/
namespace MessageLang

/-- The settings of a process that matter. -/
structure ProcessSettings where
  noColor : String := ""
  color : String := ""
  /-- Not empty if every expanded program is to be dumped into a file. -/
  dumpTrees : String := ""

def ProcessSettings.wantsColor (s : ProcessSettings) : Bool :=
  MessageLang.wantsColor s.noColor s.color

/-- What a file holds. -/
inductive FileContent where
  | missing
  /-- Bytes that are no text. -/
  | undecodable
  | text (text : String)

/-- Line ends of all systems as line feeds. -/
def unifyLineEnds : List Char → List Char
  | '\r' :: '\n' :: rest => '\n' :: unifyLineEnds rest
  | '\r' :: rest => '\n' :: unifyLineEnds rest
  | c :: rest => c :: unifyLineEnds rest
  | [] => []

/-- What a file of these bytes holds. -/
def FileContent.ofBytes (bytes : ByteArray) : FileContent :=
  match String.fromUTF8? bytes with
  | some source => .text (String.ofList (unifyLineEnds source.toList))
  | none => .undecodable

/-- The parts of a path, seen from a directory; `.` and `..` are resolved. -/
def resolvePath (directory : List String) (path : String) : List String :=
  let parts := (splitParts path.toList).map String.ofList
  let start := if path.toList.head? == some '/' then [] else directory
  parts.foldl step start
where
  /-- The text cut at every slash. -/
  splitParts : List Char → List (List Char)
    | [] => [[]]
    | '/' :: rest => [] :: splitParts rest
    | c :: rest => match splitParts rest with
      | part :: parts => (c :: part) :: parts
      | [] => [[c]]
  /-- One part further. -/
  step (parts : List String) (part : String) : List String :=
    if part.isEmpty || part == "." then parts
    else if part == ".." then parts.dropLast
    else parts ++ [part]

/-- The name of a file without its extension. -/
def stem (name : String) : String :=
  let cs := name.toList
  let extension := (cs.reverse.takeWhile (· != '.')).length
  let length := cs.length - extension - 1
  if 0 < length && 0 < extension && extension < cs.length then String.ofList (cs.take length)
  else name

/-- What a command prints, and its exit status. -/
structure CommandOutput where
  status : Nat
  out : String
  err : String
  /-- The name and content of the file that the tree is dumped into. -/
  dump : Option (String × String) := none

/-- Why a command ends without an answer of its own. -/
inductive Abort where
  | undecodable
  /-- An input is asked for that is not there. -/
  | noInput
  /-- The source is refused by an exception that is not reported. -/
  | unreported
  | defect (defect : Defect)

namespace CommandOutput

def failure (status : Nat) (message : String) : CommandOutput := { status, out := "", err := message }

end CommandOutput

namespace Arguments

/-- An input `NAME=JSON`, or why it is none. -/
def readInput (item : String) : Except String (String × Value) :=
  match splitEquals item with
  | (name, some json) =>
    if name.isEmpty then .error ("expected NAME=JSON, got " ++ Text.quoted item)
    else match Json.read json with
      | some v => .ok (name, v)
      | none => .error "<invalid JSON>"
  | _ => .error ("expected NAME=JSON, got " ++ Text.quoted item)

/-- The inputs, or what is wrong with the first that is none; of one that is not there, nothing can
be said. -/
def readInputs (items : List (Option String)) : Except (Option String) (List (String × Value)) :=
  items.mapM fun
    | some item => (readInput item).mapError some
    | none => .error none

/-- What is printed of a value. -/
def shown (v : Value) : Except Defect String :=
  match v, v.display? with
  | .none, _ => .ok ""
  | _, some text => .ok (text ++ "\n")
  | _, none => .error .improperSexp

/-- The output of running an expanded program. -/
def runProgram (settings : ProcessSettings) (p : Program) (inputs : Bindings) :
    Except Abort CommandOutput :=
  match (p.execute inputs).result with
  | .ok v => match shown v with
    | .ok out => .ok { status := 0, out, err := "" }
    | .error d => .error (.defect d)
  | .error (.reported e l) =>
    .ok (.failure 1 ((e.diagnostic l).render [] settings.wantsColor ++ "\n"))
  | .error (.defect d) => .error (.defect d)

/-- What is printed of errors of a source. -/
def report (settings : ProcessSettings) (file source : String) (e : CompileError) : CommandOutput :=
  .failure 1 (Diagnostic.renderAll (e.diagnostics file) [(file, source)] settings.wantsColor ++ "\n")

/-- The output of a command whose inputs have been read. -/
def runSource (args : Arguments) (settings : ProcessSettings) (file source : String)
    (inputs : Bindings) : Except Abort CommandOutput :=
  match compile .standard file source with
  | .error (.unreadable e) =>
    if e.escapes then .error .unreported
    else .ok (report settings file source (.unreadable e))
  | .error e => .ok (report settings file source e)
  | .ok p =>
    let dump := (Node.program p).dump false true ++ "\n"
    let output :=
      if args.dump then .ok { status := 0, out := dump, err := "" }
      else if args.expand then .ok { status := 0, out := p.toText ++ "\n", err := "" }
      else runProgram settings p inputs
    let name := stem ((resolvePath [] file).getLast?.getD file) ++ ".sexpr"
    output.map fun o =>
      { o with dump := if settings.dumpTrees.isEmpty then none else some (name, dump) }

/-- The output of a command: `file` is the name of its file in messages. -/
def run (args : Arguments) (settings : ProcessSettings) (file : String) (content : FileContent) :
    Except Abort CommandOutput :=
  match content with
  | .missing => .ok (.failure 1 ("sexp-message: error: file not found: " ++ file ++ "\n"))
  | _ =>
    match readInputs args.inputs, content with
    | .error (some why), _ =>
      .ok (.failure 2 ("sexp-message: error: bad --input: " ++ why ++ "\n"))
    | .error none, _ => .error .noInput
    | .ok inputs, .text source => args.runSource settings file source (Table.ofEntries inputs)
    | .ok _, _ => .error .undecodable

end Arguments
end MessageLang
