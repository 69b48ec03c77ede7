import MessageLang.Diagnostic.Basic
/-!
# Rendering diagnostics

An error is shown with its place and, where the source is at hand, the line it is on with a mark
under the text it is about. `Diagnostic.render` lays out one, `Diagnostic.renderAll` a list with a
summary; in colour if asked for.
-/
namespace MessageLang

/-- The ways in which a part of a message is set off. -/
inductive Paint where
  | strong
  | error
  | frame
  | hint
deriving DecidableEq, Repr

namespace Paint

/-- The control sequences that start a way of painting. -/
def start : Paint → String
  | strong => "\x1b[1m"
  | error => "\x1b[1m\x1b[31m"
  | frame => "\x1b[1m\x1b[34m"
  | hint => "\x1b[1m\x1b[36m"

/-- A painted text; the text itself without colour. -/
def apply (paint : Paint) (color : Bool) (text : String) : String :=
  if color then paint.start ++ text ++ "\x1b[0m" else text

end Paint

/-- Whether messages are coloured: unless `NO_COLOR` is set, or the colour setting says no. -/
def wantsColor (noColor setting : String) : Bool :=
  noColor.isEmpty &&
    !(["0", "false", "no", "never"].contains (String.ofList (setting.toList.map Char.toLower)))

/-- The lines of a text: it is cut at every line feed. -/
def splitLines : List Char → List (List Char)
  | [] => [[]]
  | c :: rest =>
    if c == '\n' then [] :: splitLines rest
    else match splitLines rest with
      | line :: lines => (c :: line) :: lines
      | [] => [[c]]

def spaces (n : Nat) : String := String.ofList (List.replicate n ' ')

/-- The text of an annotation, if there is one and it is not empty. -/
def given (text : Option String) : Option String := text.filter (!·.isEmpty)

namespace Diagnostic

/-- Whether a character ends the word that is underlined where the end of a region is not known. -/
def endsWord (c : Char) : Bool := c == ' ' || c == '\t' || c == ';' || c == ')' || c == ']'

/-- The number of characters underlined from a column of a line on: up to the end of the region if
it ends on that line, otherwise to the end of the word. -/
def underline (l : Location) (line : List Char) (column : Nat) : Nat :=
  if l.endLine == l.line && l.endColumn > l.column then max 1 (l.endColumn - l.column).toNat
  else max 1 ((line.drop column).takeWhile (!endsWord ·)).length

/-- The numbered line of a source, empty if there is none. -/
def sourceLine (source : String) (line : Int) : List Char :=
  if line < 1 then [] else ((splitLines source.toList)[(line - 1).toNat]?).getD []

/-- The help and the note, behind a margin of the given width. -/
def annotations (d : Diagnostic) (margin : Nat) (color : Bool) : List String :=
  let pad := spaces (margin + 1)
  let entry (title : String) (text : Option String) : List String :=
    match given text with
    | some text => [Paint.hint.apply color (pad ++ "= ") ++ Paint.strong.apply color title ++ text]
    | none => []
  match entry "help: " d.help ++ entry "note: " d.note with
  | [] => []
  | entries => Paint.frame.apply color (pad ++ "|") :: entries

/-- The error and its message. -/
def headline (d : Diagnostic) (color : Bool) : String :=
  let code := match given d.code with
    | some code => "[" ++ code ++ "]"
    | none => ""
  Paint.error.apply color ("error" ++ code) ++ Paint.strong.apply color (": " ++ d.message)

/-- The place, without the line it is on. -/
def bareLines (d : Diagnostic) (place : String) (color : Bool) : List String :=
  [d.headline color, Paint.frame.apply color " --> " ++ place] ++ d.annotations 1 color

/-- The place and the line it is on, with the underline. -/
def snippetLines (d : Diagnostic) (l : Location) (source : String) (color : Bool) : List String :=
  let number := decimalInt l.line
  let margin := number.length
  let line := sourceLine source l.line
  let column := (max l.column 1 - 1).toNat
  let label := match given d.label with
    | some label => " " ++ label
    | none => ""
  let marks := spaces column ++
    String.ofList (List.replicate (underline l line column) '^') ++ label
  [d.headline color,
    Paint.frame.apply color (spaces margin ++ "--> ") ++ l.toText,
    Paint.frame.apply color (spaces (margin + 1) ++ "|"),
    Paint.frame.apply color (number ++ " | ") ++ String.ofList line,
    Paint.frame.apply color (spaces (margin + 1) ++ "| ") ++ Paint.error.apply color marks] ++
    d.annotations margin color

/-- The lines of an error, given the sources that are at hand by their file names. -/
def lines (d : Diagnostic) (sources : List (String × String)) (color : Bool) : List String :=
  match d.location with
  | none => d.bareLines "<unknown location>" color
  | some l =>
    match sources.lookup l.file with
    | none => d.bareLines l.toText color
    | some source => d.snippetLines l source color

/-- An error as it is shown. -/
def render (d : Diagnostic) (sources : List (String × String)) (color : Bool) : String :=
  "\n".intercalate (d.lines sources color)

/-- How many errors there were. -/
def summary (count : Nat) (color : Bool) : String :=
  Paint.error.apply color "error" ++ Paint.strong.apply color
    (": aborting due to " ++ decimalNat count ++ " previous error" ++ (if count == 1 then "" else "s"))

/-- All errors, with a summary at the end. -/
def renderAll (ds : List Diagnostic) (sources : List (String × String)) (color : Bool) : String :=
  "\n\n".intercalate (ds.map (·.render sources color) ++ [summary ds.length color])

end Diagnostic
end MessageLang
