import MessageLang.Evaluation.Environment
import MessageLang.Evaluation.Failure
/-!
# Pattern matching

`Pattern.match p v b` says whether the value `v` has the shape of `p`, and adds the variables of
`p` to the bindings `b`. Bindings made before a match fails stay, except for those of a failed
alternative.
-/
namespace MessageLang

mutual
/-- Matches a value, adding to the bindings. -/
def Pattern.match : Pattern → Value → Bindings → Except Failure (Bool × Bindings)
  | .wildcard _, _, b => .ok (true, b)
  | .var name _, v, b => .ok (true, b.set name v)
  | .variant name none l, v, b => matchVariant name l v b fun _ => .ok (true, b)
  | .variant name (some p) l, v, b => matchVariant name l v b fun v => p.match v b
  | .tuple ps _, v, b =>
    match v with
    | .tuple vs => if vs.length == ps.length then matchAll ps vs b else .ok (false, b)
    | _ => .ok (false, b)
  | .list ps _, v, b =>
    match v with
    | .list vs => if vs.length == ps.length then matchAll ps vs b else .ok (false, b)
    | _ => .ok (false, b)
  | .cons head tail _, v, b =>
    match v with
    | .list (v :: vs) => do
      let (matched, b) ← head.match v b
      if matched then tail.match (.list vs) b else return (false, b)
    | _ => .ok (false, b)
  | .alternatives ps _, v, b => matchAny ps v b
  | .aliased p name _, v, b => do
    let (matched, b) ← p.match v b
    return if matched then (true, b.set name v) else (false, b)
  | .other _, _, _ => .error (.defect .malformedTree)
where
  /-- Matches an option: `None` the empty one, `Some` a full one whose content `content` accepts. -/
  matchVariant (name : String) (location : Option Location) (v : Value) (b : Bindings)
      (content : Value → Except Failure (Bool × Bindings)) : Except Failure (Bool × Bindings) :=
    if name == "None" then
      match v with
      | .none => .ok (true, b)
      | _ => .ok (false, b)
    else if name == "Some" then
      match v with
      | .none => .ok (false, b)
      | _ => content v
    else .error (.reported (.unknownConstructor name) location)

/-- Matches values one by one, up to the first that does not match. -/
def matchAll : List Pattern → List Value → Bindings → Except Failure (Bool × Bindings)
  | p :: ps, v :: vs, b => do
    let (matched, b) ← p.match v b
    if matched then matchAll ps vs b else return (false, b)
  | _, _, b => .ok (true, b)

/-- The first pattern that matches; those that do not leave no bindings. -/
def matchAny : List Pattern → Value → Bindings → Except Failure (Bool × Bindings)
  | [], _, b => .ok (false, b)
  | p :: ps, v, b => do
    let (matched, attempt) ← p.match v []
    if matched then return (true, b.update attempt) else matchAny ps v b
end

end MessageLang
