import MessageLang.Evaluation.Basic
import MessageLang.Evaluation.Matching
/-!
# Evaluation

`Expr.eval e` is the evaluation of an expression. Applications are curried: a function is called
with one argument after the other. Types have no effect, and an extension that is left has no value.

Only bindings set names. An expression that holds none ends in the environment it started in; a
binding that stands inside an expression is seen by the parts to its right and by what follows, up
to the end of the scope. How deep parts are nested has no limit.

* `Expr.eval`, `Statement.eval`, `Node.eval`: the evaluation of a part.
* `runStatements`: statements in order.
* `Program.execute`: a program with inputs, its value and its bindings.
-/
namespace MessageLang

/-- The value of an operation on two values. -/
def Operator.eval (op : Operator) (location : Option Location) (a b : Value) :
    Except Failure Value :=
  match op, a, b with
  | .concat, .str s, .str t => .ok (.str (s ++ t))
  | .concat, _, _ => .error (.reported .notStrings location)
  | .add, .int m, .int n => .ok (.int (m + n))
  | .sub, .int m, .int n => .ok (.int (m - n))
  | .mul, .int m, .int n => .ok (.int (m * n))
  | op, _, _ => .error (.reported (.notInts op) location)

/-- The value of a function applied to an argument: the call is at one place, the function at
another. -/
def applyValue (location functionLocation : Option Location) (f v : Value) :
    Except Failure Value :=
  if f.isFunction then (f.call v).mapError (CallFault.failure location)
  else .error (.reported (.notApplicable f.typeName) functionLocation)

/-- What the value of the statements so far is after one more: bindings do not count. -/
def Statement.result (s : Statement) (before v : Value) : Value :=
  match s with
  | .expression _ _ => v
  | _ => before

mutual
/-- Evaluates an expression. What is no expression has the value that it has by itself. -/
def Expr.eval : Expr → Evaluating Value
  | .constant c => return c.value
  | .identifier name l => .lookup name l
  | .apply f args l => do applyArguments l f.location (← f.eval) args
  | .constraint e _ _ => e.eval
  | .extension name _ l => .fail (.unexpanded name) l
  | .tuple es _ => return .tuple (← evalAll es)
  | .list es _ => return .list (← evalAll es)
  | .unit _ => return .unit
  | .binary left op right l => do
    let a ← left.eval
    let b ← right.eval
    .ofExcept (op.eval l a b)
  | .cons head tail _ => do
    let v ← head.eval
    match ← tail.eval with
    | .list vs => return .list (v :: vs)
    | _ => .fail .notAListTail tail.location
  | .matching e arms l => do evalArms l (← e.eval) arms
  | .other n => n.eval

/-- The values of expressions, from left to right. -/
def evalAll : List Expr → Evaluating (List Value)
  | [] => return []
  | e :: rest => do
    let v ← e.eval
    return v :: (← evalAll rest)

/-- The value of a function applied to arguments, one after the other. A label is refused before
its expression is evaluated, at the place of the expression; one without an expression has none. -/
def applyArguments (location functionLocation : Option Location) (f : Value) :
    List Argument → Evaluating Value
  | [] => return f
  | .mk .positional e :: rest => do
    let v ← e.eval
    let f ← .ofExcept (applyValue location functionLocation f v)
    applyArguments location functionLocation f rest
  | .mk _ (.other .missing) :: _ => throw (.defect .malformedTree)
  | .mk label e :: _ => .fail (.labelledArgument label) e.location
  | .other _ :: _ => throw (.defect .malformedTree)

/-- The value of the first arm that matches, its variables bound in a scope of their own. An alias
pattern in the place of an arm can be passed over as an arm with its pattern, but has no body. -/
def evalArms (location : Option Location) (v : Value) : List Arm → Evaluating Value
  | [] => .fail (.noMatch v) location
  | .mk p body _ :: rest => do
    let (matched, b) ← .ofExcept (p.match v [])
    if matched then .inScope b body.eval else evalArms location v rest
  | .other (.pattern (.aliased p _ _)) :: rest => do
    let (matched, _) ← .ofExcept (p.match v [])
    if matched then throw (.defect .malformedTree) else evalArms location v rest
  | .other _ :: _ => throw (.defect .malformedTree)

/-- Evaluates a statement. The value of a binding is the one that it binds. -/
def Statement.eval : Statement → Evaluating Value
  | .binding name e _ => do
    let v ← e.eval
    .define name v
    return v
  | .expression e _ => e.eval
  | .other n => n.eval

/-- Runs statements in order. The value is that of the last expression statement, or the given one
if there is none. -/
def runStatements : List Statement → Value → Evaluating Value
  | [], value => return value
  | s :: rest, value => do
    let v ← s.eval
    runStatements rest (s.result value v)

/-- Evaluates any node. Patterns and types have the empty option for a value, an arm that of its
body. -/
def Node.eval : Node → Evaluating Value
  | .program ⟨statements, _⟩ => runStatements statements .none
  | .statement s => s.eval
  | .expr e => e.eval
  | .arm (.mk _ body _) => body.eval
  | .arm (.other n) => n.eval
  | .pattern _ | .type _ => return .none
  | .argument _ | .missing => throw (.defect .malformedTree)
end

/-- The result of a program: its value or failure, and the names it has bound. -/
structure Execution where
  result : Except Failure Value
  outputs : Bindings

/-- The environment in which a program starts that is given inputs. -/
def Environment.withInputs (inputs : Bindings) : Environment := Environment.initial.setAll inputs

/-- Runs a program. The outputs are the global names that are no inputs; after a failure they
include the inputs. -/
def Program.execute (p : Program) (inputs : Bindings) : Execution :=
  let (result, env) := (runStatements p.statements .none).outcome (.withInputs inputs)
  let names := env.global?.getD []
  match result with
  | .ok _ => ⟨result, names.without inputs⟩
  | .error _ => ⟨result, names⟩

/-- The result of running what did not compile. -/
def Execution.notCompiled : Execution := ⟨.error (.reported .notCompiled none), []⟩

end MessageLang
