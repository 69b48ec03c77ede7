import MessageLang.Text.Digit
/-!
# Command line arguments

`Arguments.parse` reads a command line: one file and options, in any order. An option may be
abbreviated as long as it stays unique, and its value may follow it or an equals sign. The mark `--`
stands for nothing itself, also as the value of an option; behind it no word is an option.
-/
namespace MessageLang

/-- What a command line asks for. -/
structure Arguments where
  file : String
  expand : Bool
  dump : Bool
  verbose : Bool
  /-- The inputs as they are written, in order; one that is written as `--` counts as none. -/
  inputs : List (Option String)
deriving Repr

namespace Arguments

/-- Why a command line is not carried out. -/
inductive Refusal where
  /-- It asks for help. -/
  | help
  /-- It is no proper command line. -/
  | misuse
deriving DecidableEq, Repr

/-- The options. -/
inductive Switch where
  | help
  | expand
  | dump
  | input
  | verbose
deriving DecidableEq, Repr

/-- The options by their names. -/
def options : List (String × Switch) :=
  [("-h", .help), ("--help", .help), ("--expand", .expand), ("--dump-ast", .dump),
    ("--input", .input), ("--verbose", .verbose)]

/-- An argument by itself: a plain word, an option perhaps with a value, an option that is unknown,
or an abbreviation of several. -/
inductive Word where
  | plain (text : String)
  | option (option : Switch) (value : Option String)
  | unknown
  | ambiguous

/-- A text up to its first equals sign, and what follows that. -/
def splitEquals (text : String) : String × Option String :=
  let cs := text.toList
  match cs.dropWhile (· != '=') with
  | [] => (text, none)
  | _ :: value => (String.ofList (cs.takeWhile (· != '=')), some (String.ofList value))

/-- Whether digits end a text; a line feed may follow them. -/
def endsInDigits (text : List Char) : Bool :=
  let rest := text.dropWhile Text.isDigit
  rest.length < text.length && (rest == [] || rest == ['\n'])

/-- Whether a text looks like a negative number: digits, perhaps with a point before the last. -/
def isNegativeNumber (text : String) : Bool :=
  match text.toList with
  | '-' :: ds =>
    endsInDigits ds || match ds.dropWhile Text.isDigit with
      | '.' :: more => endsInDigits more
      | _ => false
  | _ => false

/-- The options that a word with two dashes names or abbreviates, with the value behind its equals
sign. -/
def abbreviated (text : String) : List Word :=
  let (name, value) := splitEquals text
  (options.filter fun (full, _) => name.toList.isPrefixOf full.toList).map
    fun (_, option) => .option option value

/-- A word that begins with `-h`, by what follows, perhaps behind an equals sign: more of the same
ask for help again, and anything else is a value, which help does not take. -/
def helpLetters (letters : List Char) : Word :=
  let more := match letters with
    | '=' :: more => more
    | _ => letters
  if !more.isEmpty && more.all (· == 'h') then .option .help none
  else .option .help (some (String.ofList more))

/-- What a word with dashes is. -/
def dashed (text : String) : Word :=
  match options.lookup text, text.toList with
  | some option, _ => .option option none
  | none, '-' :: 'h' :: letters => helpLetters letters
  | none, cs =>
    match if cs.take 2 == ['-', '-'] then abbreviated text else [] with
    | [word] => word
    | _ :: _ => .ambiguous
    | [] => if isNegativeNumber text || cs.contains ' ' then .plain text else .unknown

/-- What an argument is by itself. -/
def classify (text : String) : Word :=
  match text.toList with
  | '-' :: _ :: _ => dashed text
  | _ => .plain text

/-- The words of a command line; behind `--` all arguments are plain. -/
def words : List String → List (Option Word)
  | [] => []
  | "--" :: rest => none :: rest.map fun text => some (.plain text)
  | text :: rest => some (classify text) :: words rest

/-- What has been read so far. -/
structure Progress where
  files : List String
  /-- Whether there was an argument that has no place. -/
  unknown : Bool
  /-- Whether the last argument was a plain one. -/
  afterFile : Bool
  read : Arguments

/-- Takes an option. -/
def Progress.take (p : Progress) (change : Arguments → Arguments) : Progress :=
  { p with read := change p.read, afterFile := false }

/-- Reads the words of a command line one after the other. The mark `--` belongs to the file next
to it, and has no place where the file came earlier. -/
def readWords : List (Option Word) → Progress → Except Refusal Progress
  | [], p => .ok p
  | none :: rest, p =>
    readWords rest { p with unknown := p.unknown || (!p.files.isEmpty && !p.afterFile) }
  | some word :: rest, p =>
    match word with
    | .plain text => readWords rest { p with files := p.files ++ [text], afterFile := true }
    | .unknown => readWords rest { p with unknown := true, afterFile := false }
    | .ambiguous => .error .misuse
    | .option .input (some value) =>
      let input := if value == "--" then none else some value
      readWords rest (p.take fun a => { a with inputs := a.inputs ++ [input] })
    | .option .input none =>
      match rest with
      | some (.plain value) :: rest =>
        readWords rest (p.take fun a => { a with inputs := a.inputs ++ [some value] })
      | _ => .error .misuse
    | .option .help none => .error .help
    | .option _ (some _) => .error .misuse
    | .option .expand none => readWords rest (p.take ({ · with expand := true }))
    | .option .dump none => readWords rest (p.take ({ · with dump := true }))
    | .option .verbose none => readWords rest (p.take ({ · with verbose := true }))

/-- What a command line asks for. -/
def parse (args : List String) : Except Refusal Arguments := do
  let ws := words args
  if ws.any fun word => match word with
    | some .ambiguous => true
    | _ => false
  then .error .misuse
  else
    let p ← readWords ws ⟨[], false, false, ⟨"", false, false, false, []⟩⟩
    match p.files, p.unknown with
    | [file], false => .ok { p.read with file }
    | _, _ => .error .misuse

end Arguments
end MessageLang
