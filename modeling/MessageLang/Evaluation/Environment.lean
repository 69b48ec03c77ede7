import MessageLang.Table
import MessageLang.Value.Basic
/-!
# Environments

An environment is a stack of scopes that is never empty: a bottom scope, which holds the names every
program can refer to, and those above it. A name stands for its value in the innermost scope that
has it; values are set in the innermost scope.
-/
namespace MessageLang

/-- The names and values of one scope. -/
abbrev Bindings := Table Value

namespace Builtin

/-- The scalar types, by name. -/
def scalars : List (String × Scalar) :=
  [("int", .integer .int), ("int32", .integer .int32), ("int64", .integer .int64),
    ("nativeint", .integer .nativeint), ("float", .float), ("char", .char), ("string", .string),
    ("bool", .bool), ("unit", .unit), ("opaque", .anything)]

/-- The types with parts, by name. -/
def families : List (String × Family) :=
  [("list", .list), ("array", .array), ("option", .option), ("tuple", .tuple)]

/-- The converters, by the names of their types. -/
def converters : List (String × Builtin) :=
  scalars.map (fun (n, s) => (n, .scalar s)) ++ families.map fun (n, f) => (n, .family f)

/-- The names that every program can refer to. A converter is found with its module and without. -/
def bindings : Bindings :=
  [("Sexp.Atom", .builtin .makeAtom), ("Sexp.List", .builtin .makeList),
    ("Sexp.sexp_of_t", .builtin .sexp), ("None", .none), ("Some", .builtin .some),
    ("true", .bool true), ("false", .bool false), ("string_of_int", .builtin .intText),
    ("string_of_float", .builtin .floatText)] ++
  converters.flatMap fun (n, b) =>
    [("Conv.sexp_of_" ++ n, .builtin b), ("sexp_of_" ++ n, .builtin b)]

end Builtin

/-- A stack of scopes. -/
structure Environment where
  bottom : Bindings
  /-- The scopes above the bottom one, innermost first. -/
  upper : List Bindings

namespace Environment

/-- An environment with one empty scope above the bottom. -/
def onTopOf (bottom : Bindings) : Environment := ⟨bottom, [[]]⟩

/-- The environment in which programs start. -/
def initial : Environment := onTopOf Builtin.bindings

/-- Enters a scope that holds the given bindings. -/
def push (env : Environment) (scope : Bindings) : Environment :=
  { env with upper := scope :: env.upper }

/-- Enters an empty scope. -/
def enter (env : Environment) : Environment := env.push []

/-- The environment without its innermost scope; the bottom one stays. -/
def leave (env : Environment) : Environment := { env with upper := env.upper.tail }

/-- Leaves the innermost scope, unless it is the only one. -/
def exit? (env : Environment) : Option Environment :=
  if env.upper.isEmpty then none else some env.leave

/-- Sets a name in the innermost scope. -/
def set (env : Environment) (name : String) (v : Value) : Environment :=
  match env.upper with
  | [] => { env with bottom := env.bottom.set name v }
  | scope :: rest => { env with upper := scope.set name v :: rest }

/-- The value of a name in the innermost scope that has it. -/
def get? (env : Environment) (name : String) : Option Value :=
  (env.upper.findSome? (·.get? name)) <|> env.bottom.get? name

def isBound (env : Environment) (name : String) : Bool := (env.get? name).isSome

/-- The scope right above the bottom one, where programs bind their names. -/
def global? (env : Environment) : Option Bindings := env.upper.getLast?

/-- The environment with values for the inputs of a program. -/
def setAll (env : Environment) (inputs : Bindings) : Environment :=
  inputs.foldl (fun env (n, v) => env.set n v) env

end Environment
end MessageLang
