import MessageLang.Diagnostic.Basic
import MessageLang.Syntax.Print
/-!
# Failures of expansion

Why an extension cannot be expanded, and where.
-/
namespace MessageLang

inductive ExpansionError where
  /-- A constant of no kind has no converter. -/
  | unsupportedLiteral
  /-- A constant stands where a type is expected. -/
  | notAType
  /-- A name stands where a type is expected. -/
  | nameNotAType (name : String)
  | shortTupleType
  | optionalLabel (name : String)
  | unwantedPayload (extension : String)
  /-- No extension has this name; the names of those that are registered, in order. -/
  | unknownExtension (name : String) (registered : List String)
  /-- A part of the payload that has no text would be needed as a tag. -/
  | unprintable (why : NoText)
  /-- The place of something that has none is asked for. -/
  | unplaced
  /-- A place in the tree that is to be filled is empty. -/
  | missing
  /-- Expansions follow one another without end. -/
  | endless (extension : String)

namespace ExpansionError

def message : ExpansionError → String
  | unsupportedLiteral => "unsupported literal kind: None"
  | notAType => "expected a type"
  | nameNotAType name => "expected a type, found \x60" ++ name ++ "\x60"
  | shortTupleType => "tuple types need at least two components"
  | optionalLabel _ => "optional argument not allowed here"
  | unwantedPayload extension => "[%" ++ extension ++ "] takes no payload"
  | unknownExtension name _ => "uninterpreted extension '" ++ name ++ "'"
  | unprintable _ => "this expression cannot be printed"
  | unplaced => "the place of this expression is not known"
  | missing => "an expression is missing here"
  | endless extension => "the expansion of [%" ++ extension ++ "] does not end"

def code : ExpansionError → ErrorCode
  | unsupportedLiteral => .unsupportedLiteral
  | notAType | nameNotAType _ | shortTupleType => .unsupportedType
  | optionalLabel _ => .optionalLabel
  | unwantedPayload _ => .unwantedPayload
  | unknownExtension _ _ => .unknownExtension
  | unprintable _ | unplaced | missing | endless _ => .internal

def help : ExpansionError → Option String
  | optionalLabel name => some ("use a labelled argument \x60~" ++ name ++ ":\x60 instead")
  | unwantedPayload extension => some ("write [%" ++ extension ++ "]")
  | unknownExtension _ registered =>
    some ("registered extensions: " ++ ", ".intercalate registered)
  | _ => none

def label : ExpansionError → Option String
  | optionalLabel name => some ("\x60?" ++ name ++ "\x60 is optional")
  | _ => none

end ExpansionError

structure ExpansionFailure where
  error : ExpansionError
  location : Option Location

namespace ExpansionFailure

def diagnostic (f : ExpansionFailure) : Diagnostic :=
  { message := f.error.message, location := f.location, code := some f.error.code.toText,
    help := f.error.help, label := f.error.label }

/-- Whether no diagnostic describes the failure, since only a tree that was not read from a text
can bring it about. -/
def isDefect (f : ExpansionFailure) : Bool :=
  match f.error with
  | .unprintable _ | .unplaced | .missing => true
  | _ => false

end ExpansionFailure

/-- The result of an expansion that may fail. -/
abbrev Expanding := Except ExpansionFailure

end MessageLang
