import MessageLang.Evaluation.Eval
import MessageLang.Proofs.Expansion.Contributions
/-!
# The direct meaning of programs

What a program stands for, messages included, with no word about the code that they expand to. An
expression has a value in an environment, which it does not change, or none.

* `Argument.contributed`: what an argument contributes to a message: nothing, or a value behind its
  tag.
* `Message.value?`: the value of a message, of what its arguments contribute.
* `Expr.meaning`, `Program.meaning`: the value of an expression; that of a program and its bindings.
* `meaning_call`: the value of a function at one argument.
-/
namespace MessageLang

/-! ## Values -/

/-- The value of a function at an argument. -/
def Value.call? (f v : Value) : Option Value :=
  if f.isFunction then (f.call v).toOption else Option.none

/-- The value of a function at arguments, one after the other. -/
def Value.callAll? (f : Value) : List Value → Option Value
  | [] => some f
  | v :: vs => do (← f.call? v).callAll? vs

/-- The S-expression list of S-expressions. -/
def Value.sexpList? (vs : List Value) : Option Value :=
  if vs.all Value.isSexp then some (.sexpList vs) else Option.none

/-- What an option holds. -/
def Value.content? : Value → Option Value
  | .none => Option.none
  | v => some v

/-- The type that the constants of a kind have. -/
def LiteralKind.scalar : LiteralKind → Scalar
  | integer k => .integer k
  | char => .char
  | string => .string
  | float => .float

/-- The S-expression of a value of a type without parts. -/
def Scalar.converted? (type : Scalar) (v : Value) : Option Value := (type.convert v).toOption

mutual
/-- The value of a type's converter. That of a hidden type takes none for what it hides. -/
def TypeExpr.conversion? (env : Environment) : TypeExpr → Option Value
  | .named name args _ => do
    let f ← env.get? (Converter.name name)
    if args.isEmpty || name == Converter.hiddenType then some f
    else f.callAll? (← conversions? env args)
  | .tuple ts _ => do
    if isShortTuple ts then none
    else (Value.builtin (.family .tuple)).call? (.list (← conversions? env ts))
  | .other _ => none

def conversions? (env : Environment) : List TypeExpr → Option (List Value)
  | [] => some []
  | t :: rest => do
    let f ← t.conversion? env
    return f :: (← conversions? env rest)
end

/-! ## Messages -/

/-- What an expression with a value contributes, not yet tagged: the literal `""` and an empty
option contribute nothing, a constant what its kind makes of it, an annotated expression what its
type makes of it, and any other expression is a string. -/
def Expr.contributed (env : Environment) (e : Expr) (v : Value) : Option (Option Value) :=
  match e with
  | .constant c =>
    if c.isEmptyString then some none
    else do
      let k ← c.kind
      return some (← k.scalar.converted? v)
  | .constraint _ t _ =>
    match t.optional? with
    | some t =>
      match v.content? with
      | some v => do return some (← (← t.conversion? env).call? v)
      | none => some none
    | none => do return some (← (← t.conversion? env).call? v)
  | _ => do return some (← Scalar.string.converted? v)

/-- A value behind a tag, if there is one. -/
def behindTag (tag? : Option (Option Location × String)) (v : Value) : Option Value :=
  match tag? with
  | some (_, tag) => Value.sexpList? [.atom tag, v]
  | none => some v

/-- What an argument contributes whose expression has a value. -/
def Argument.contributed (env : Environment) (label : Label) (e : Expr) (v : Value) :
    Option (Option Value) :=
  match label with
  | .optional _ => none
  | label => do
    match ← e.contributed env v with
    | some w => return some (← behindTag (Argument.mk label e).tag? w)
    | none => return none

/-- The value of a message: a single contribution itself, or the list of all. -/
def Message.value? (contributions : List (Option Value)) : Option Value :=
  match contributions.filterMap id with
  | [v] => some v
  | vs => Value.sexpList? vs

/-! ## Programs -/

mutual
/-- The value of an expression. -/
def Expr.meaning (env : Environment) : Expr → Option Value
  | .constant c => some c.value
  | .identifier name _ => env.get? name
  | .apply f args _ => do meaningOfArguments env (← f.meaning env) args
  | .constraint e _ _ => e.meaning env
  | .extension name none l =>
    if name == "message" then some (.sexpList [])
    else if name == "here" then l.map fun l => .str l.positionText
    else none
  | .extension name (some (.apply f args _)) _ => do
    if name == "message" then
      let v ← f.meaning env
      let c ← Argument.contributed env .positional f v
      Message.value? (c :: (← contributions env args))
    else none
  | .extension name (some e) _ => do
    if name == "message" then
      let v ← e.meaning env
      let c ← Argument.contributed env .positional e v
      Message.value? [c]
    else none
  | .tuple es _ => return .tuple (← meanings env es)
  | .list es _ => return .list (← meanings env es)
  | .unit _ => some .unit
  | .binary left op right _ => do
    let a ← left.meaning env
    let b ← right.meaning env
    (op.eval none a b).toOption
  | .cons head tail _ => do
    let v ← head.meaning env
    match ← tail.meaning env with
    | .list vs => some (.list (v :: vs))
    | _ => none
  | .matching e arms _ => do meaningOfArms env (← e.meaning env) arms
  | .other _ => none

def meanings (env : Environment) : List Expr → Option (List Value)
  | [] => some []
  | e :: rest => do
    let v ← e.meaning env
    return v :: (← meanings env rest)

/-- The value of a function applied to arguments; labels are refused. -/
def meaningOfArguments (env : Environment) (f : Value) : List Argument → Option Value
  | [] => some f
  | .mk .positional e :: rest => do
    let v ← e.meaning env
    meaningOfArguments env (← f.call? v) rest
  | _ :: _ => none

/-- What arguments contribute to a message, in order. -/
def contributions (env : Environment) : List Argument → Option (List (Option Value))
  | [] => some []
  | .mk label e :: rest => do
    let v ← e.meaning env
    let c ← Argument.contributed env label e v
    return c :: (← contributions env rest)
  | .other _ :: _ => none

/-- The value of the first arm that matches. -/
def meaningOfArms (env : Environment) (v : Value) : List Arm → Option Value
  | .mk p body _ :: rest =>
    match p.match v [] with
    | .ok (true, b) => body.meaning (env.push b)
    | .ok (false, _) => meaningOfArms env v rest
    | .error _ => none
  | _ => none
end

/-- The value of statements, given that of those before, and the environment behind them. -/
def meaningOfStatements : List Statement → Value → Environment → Option (Value × Environment)
  | [], v, env => some (v, env)
  | .binding name e _ :: rest, v, env => do
    let w ← e.meaning env
    meaningOfStatements rest v (env.set name w)
  | .expression e _ :: rest, _, env => do
    let w ← e.meaning env
    meaningOfStatements rest w env
  | .other _ :: _, _, _ => none

/-- The value of a program with inputs, and its bindings. -/
def Program.meaning (p : Program) (inputs : Bindings) : Option (Value × Bindings) := do
  let (v, env) ← meaningOfStatements p.statements .none (.withInputs inputs)
  return (v, (env.global?.getD []).without inputs)

/-! ## Calls -/

section

variable {env : Environment} {l : Option Location}

/-- A function at arguments without labels. -/
theorem meaningOfArguments_map (g : Value) (es : List Expr) :
    meaningOfArguments env g (es.map (.mk .positional)) = (meanings env es).bind g.callAll? := by
  induction es generalizing g with
  | nil => rfl
  | cons e es ih =>
    simp only [List.map_cons, meaningOfArguments, meanings, Option.bind_eq_bind, ih,
      Option.pure_def]
    cases e.meaning env with
    | none => rfl
    | some v =>
      cases hg : g.call? v <;> cases meanings env es <;> simp [Value.callAll?, hg]

theorem meaning_callAll (f : Expr) (es : List Expr) :
    (Expr.call f es l).meaning env =
      (f.meaning env).bind fun g => (meanings env es).bind g.callAll? := by
  simp only [Expr.call, Expr.meaning, Option.bind_eq_bind, meaningOfArguments_map]

theorem meaning_call (f x : Expr) :
    (Expr.call f [x] l).meaning env =
      (f.meaning env).bind fun g => (x.meaning env).bind fun v => g.call? v := by
  rw [meaning_callAll]
  cases f.meaning env with
  | none => rfl
  | some g =>
    simp only [meanings, Option.bind_some, Option.bind_eq_bind, Option.pure_def]
    cases x.meaning env with
    | none => rfl
    | some v => simp [Value.callAll?]

end

end MessageLang
