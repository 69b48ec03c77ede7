import MessageLang.Diagnostic.Basic
import MessageLang.Grammar.State
import MessageLang.Text.Blank
import MessageLang.Text.Quoted
/-!
# Reading programs

`Program.parse` reads a source text: it cuts off one lexeme after the other, of a class that the
state looks for, and shifts it. Bad literals are only blamed once the whole text has been read.
Two of the errors stand for exceptions that escape, see `ParseError.escapes`.

* `readFrom`: the state after a text, or the place where it cannot go on.
* `Program.parse`, `Expr.parse`: a program, a single expression.
-/
namespace MessageLang

/-- What stands where a text cannot go on. -/
inductive Unexpected where
  | character (c : Char)
  | token (text : String)
  | endOfInput
deriving DecidableEq, Repr

def Unexpected.message : Unexpected → String
  | character c => "unexpected character " ++ Text.quoted (String.singleton c)
  | token text => "unexpected token " ++ Text.quoted text
  | endOfInput => "unexpected end of input"

inductive ParseError where
  /-- The text is no program. -/
  | unexpected (what : Unexpected) (line column : Nat)
  /-- The text is a program but for a literal. -/
  | badLiteral (bad : BadLiteral)
  /-- The text is a program, but no single expression. -/
  | notOneExpression (location : Option Location)
  /-- The text has no file name. This stands for an exception that escapes, see
  `ParseError.escapes`. -/
  | unnamed

namespace ParseError

/-- Whether the error stands for an exception that escapes, where all others are reported. Its
message, its code and its place are then never reported. -/
def escapes : ParseError → Bool
  | badLiteral bad => bad.error.escapes
  | unnamed => true
  | unexpected _ _ _ | notOneExpression _ => false

def message : ParseError → String
  | unexpected what _ _ => what.message
  | badLiteral bad => bad.error.message
  | notOneExpression _ => "expected a single expression"
  | unnamed => "the source has no file name"

def code : ParseError → ErrorCode
  | badLiteral ⟨.outOfRange _, _⟩ => .literalOutOfRange
  | _ => .malformed

/-- Where in the file the error is. -/
def location (file : String) : ParseError → Option Location
  | unexpected _ line column => some (.point file line column)
  | badLiteral bad => some bad.location
  | notOneExpression location => location
  | unnamed => none

def diagnostic (file : String) (e : ParseError) : Diagnostic :=
  .plain e.code e.message (e.location file)

end ParseError

/-- The state after a text that starts at position `p`, where `last` is the start of the token
before it. -/
def readFrom (file : String) (st : State) (last p : Position) (cs : List Char) :
    Except ParseError State :=
  match cs with
  | [] => match st.mode with
    | .statement => .ok st
    | _ => .error (.unexpected .endOfInput last.line last.column)
  | c :: rest =>
    match h : Terminal.first? st.accepts (c :: rest) with
    | some t =>
      have : 0 < t.width (c :: rest) := Terminal.width_pos_of_first? h
      let text := (c :: rest).take (t.width (c :: rest))
      let next := p.advance text
      if t.isLayout then readFrom file st last next ((c :: rest).drop (t.width (c :: rest)))
      else match st.shift file ⟨t, text, p, next⟩ with
        | some st => readFrom file st p next ((c :: rest).drop (t.width (c :: rest)))
        | none => .error (.unexpected (.token (String.ofList text)) p.line p.column)
    | none =>
      match Terminal.first? (fun _ => true) (c :: rest) with
      | some t =>
        let text := (c :: rest).take (t.width (c :: rest))
        .error (.unexpected (.token (String.ofList text)) p.line p.column)
      | none => .error (.unexpected (.character c) p.line p.column)
termination_by cs.length
decreasing_by all_goals simp only [List.length_drop, List.length_cons] at *; omega

/-- The region from the start of one place to the end of another. -/
def Location.spanning (first last : Location) : Location :=
  { first with stop := last.stop, endLine := last.endLine, endColumn := last.endColumn }

/-- Where a program is: from its first statement to its last. -/
def Program.region (file : String) (statements : List Statement) : Location :=
  match statements.head?.bind (·.location), statements.getLast?.bind (·.location) with
  | some first, some last => first.spanning last
  | _, _ => .point file 0 0

/-- The program that a text is. -/
def Program.parse (file source : String) : Except ParseError Program := do
  let st ← readFrom file .initial .start .start source.toList
  if file.isEmpty then .error .unnamed
  else match st.fault with
    | some bad => .error (.badLiteral bad)
    | none =>
      let statements := st.statements.reverse
      return ⟨statements, some (region file statements)⟩

/-- A text with a semicolon at its end, and no blanks behind it. -/
def withSemicolon (source : String) : String :=
  let text := Text.trimEnd source.toList
  String.ofList (if text.getLast? == some ';' then text else text ++ [';'])

/-- The single expression that a text is; a semicolon at its end may be missing. -/
def Expr.parse (file source : String) : Except ParseError Expr := do
  let p ← Program.parse file (withSemicolon source)
  match p.statements with
  | [.expression e _] => .ok e
  | _ => .error (.notOneExpression p.location)

end MessageLang
