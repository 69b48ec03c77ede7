import MessageLang.Evaluation.Environment
/-!
# Operations on environments

An environment is used through operations. Each has an answer, or it is refused and changes nothing.
-/
namespace MessageLang.Environment

inductive Operation where
  | enter
  | exit
  | set (name : String) (value : Value)
  | lookup (name : String)
  | isBound (name : String)

/-- What an operation answers. -/
inductive Answer where
  | done
  | value (v : Value)
  | truth (b : Bool)

/-- Why an operation is refused. -/
inductive Refusal where
  | onlyScope
  | unbound (name : String)

def Refusal.message : Refusal → String
  | onlyScope => "Cannot exit scope: no active scope"
  | unbound name => name

/-- The answer to an operation, and the environment behind it. -/
def perform (env : Environment) : Operation → Except Refusal Answer × Environment
  | .enter => (.ok .done, env.enter)
  | .exit => match env.exit? with
    | some env => (.ok .done, env)
    | none => (.error .onlyScope, env)
  | .set name v => (.ok .done, env.set name v)
  | .lookup name => match env.get? name with
    | some v => (.ok (.value v), env)
    | none => (.error (.unbound name), env)
  | .isBound name => (.ok (.truth (env.isBound name)), env)

/-- The environment behind operations that are done one after the other. -/
def performAll (env : Environment) (ops : List Operation) : Environment :=
  ops.foldl (fun env op => (env.perform op).2) env

end MessageLang.Environment
