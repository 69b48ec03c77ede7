import MessageLang.Evaluation.Environment
import MessageLang.Evaluation.Failure
/-!
# Evaluations

An evaluation starts in an environment and ends in one, with a value or with a failure. What it set
before it failed stays set.

* `Evaluating.lookup`, `Evaluating.define`: the names of the environment.
* `Evaluating.inScope`: an evaluation in a scope of its own, of which nothing is left at the end.
-/
namespace MessageLang

/-- An evaluation: from the environment at its start, its result and the environment at its end. -/
abbrev Evaluating := EStateM Failure Environment

namespace Evaluating

variable {α : Type}

/-- Fails for a cause at a place. -/
def fail (error : RuntimeError) (location : Option Location) : Evaluating α :=
  throw (.reported error location)

/-- A result that does not hang on the environment. -/
def ofExcept : Except Failure α → Evaluating α
  | .ok a => pure a
  | .error failure => throw failure

/-- The value of a name that stands at a place. -/
def lookup (name : String) (location : Option Location) : Evaluating Value := do
  match (← get).get? name with
  | some v => return v
  | none => fail (.unbound name) location

/-- Sets a name in the innermost scope. -/
def define (name : String) (v : Value) : Evaluating Unit := modify (·.set name v)

/-- Evaluates in a scope of its own, which starts with the given bindings and is left at the end,
also after a failure. -/
def inScope (b : Bindings) (x : Evaluating α) : Evaluating α := fun env =>
  match x (env.push b) with
  | .ok a env => .ok a env.leave
  | .error failure env => .error failure env.leave

/-- The result of an evaluation and the environment at its end. -/
def outcome (x : Evaluating α) (env : Environment) : Except Failure α × Environment :=
  match x env with
  | .ok a env => (.ok a, env)
  | .error failure env => (.error failure, env)

end Evaluating
end MessageLang
