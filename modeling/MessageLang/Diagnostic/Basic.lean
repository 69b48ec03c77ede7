import MessageLang.Source.Location
/-!
# Diagnostics

What an error message says, where, and under which code.
-/
namespace MessageLang

/-- The stable codes of errors, by the phase in which they arise. -/
inductive ErrorCode where
  | malformed
  | literalOutOfRange
  | unsupportedLiteral
  | optionalLabel
  | unwantedPayload
  | unknownExtension
  | unsupportedType
  | unbound
  | conversion
  | noMatch
  | unexpanded
  | internal
deriving DecidableEq, Repr

def ErrorCode.toText : ErrorCode → String
  | malformed => "E0001"
  | literalOutOfRange => "E0002"
  | unsupportedLiteral => "E0101"
  | optionalLabel => "E0102"
  | unwantedPayload => "E0103"
  | unknownExtension => "E0104"
  | unsupportedType => "E0105"
  | unbound => "E0201"
  | conversion => "E0202"
  | noMatch => "E0203"
  | unexpanded => "E0204"
  | internal => "E9999"

/-- An error message with its annotations. -/
structure Diagnostic where
  message : String
  location : Option Location
  code : Option String := none
  help : Option String := none
  note : Option String := none
  /-- What stands behind the underline. -/
  label : Option String := none
deriving DecidableEq, Repr

/-- A message under a code, without annotations. -/
def Diagnostic.plain (code : ErrorCode) (message : String) (location : Option Location) :
    Diagnostic :=
  { message, location, code := some code.toText }

namespace Diagnostic

/-- The message and the place, without a code. -/
def brief (d : Diagnostic) : String :=
  match d.location with
  | some l => "error: " ++ d.message ++ "\n --> " ++ l.toText
  | none => d.message

/-- A message about the program that reports it. -/
def internal (code message : String) : String := "[" ++ code ++ "] " ++ message

end Diagnostic
end MessageLang
