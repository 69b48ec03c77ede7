import MessageLang.Expansion.Expand
import MessageLang.Grammar.Parse
/-!
# Compiling programs

A text is compiled by reading it and expanding its extensions. If anything fails there is no
program, only the errors: the one of a text that cannot be read, or those of all extensions that
cannot be expanded, in order.
-/
namespace MessageLang

/-- Why a text has no expanded program. -/
inductive CompileError where
  | unreadable (error : ParseError)
  /-- The failures of its extensions; there is at least one. -/
  | unexpanded (failures : List ExpansionFailure)

namespace CompileError

/-- Whether the text could be read. -/
def isParsed : CompileError → Bool
  | unreadable _ => false
  | unexpanded _ => true

/-- The errors as they are reported. Of one that escapes nothing is reported, see
`ParseError.escapes`. -/
def diagnostics (file : String) : CompileError → List Diagnostic
  | unreadable e => [e.diagnostic file]
  | unexpanded failures => failures.map (·.diagnostic)

end CompileError

/-- The expanded program of a text. -/
def compile (setting : Setting) (file source : String) : Except CompileError Program :=
  match Program.parse file source with
  | .error e => .error (.unreadable e)
  | .ok p =>
    let result := p.expand setting
    match result.failures with
    | [] => .ok result.value
    | failures => .error (.unexpanded failures)

end MessageLang
