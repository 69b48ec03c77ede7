import MessageLang.Expansion.Converter
import MessageLang.Expansion.Omittable
/-!
# Messages and places

`[%message f ~x:a (b : t)]` stands for code that builds an S-expression with the shape of its
payload, and `[%here]` for the text of its own place. How types become converters, expressions tags
and places expressions is a parameter, `Conventions`.

* `Argument.contribution`: what an argument contributes to a message.
* `Message.expand`, `Here.expand`: the code that the two extensions stand for.
-/
namespace MessageLang

/-- How the parts of a payload are turned into code. -/
structure Conventions where
  /-- The converter of a type. -/
  converter : TypeExpr → Expanding Expr
  /-- The tag of an expression, if it has a text of its own. -/
  tag : Expr → Expanding (Option String)
  /-- The code of a place. -/
  place : Option Location → Expanding Expr

namespace Here

/-- The string constant of a place. -/
def lift (location : Option Location) : Expanding Expr :=
  match location with
  | some l => .ok (.constant (.ofString l.positionText location))
  | none => .error ⟨.unplaced, none⟩

/-- The code of `[%here]`. -/
def expand (conventions : Conventions) (location : Option Location) (_ : Option Expr) :
    Expanding Expr :=
  conventions.place location

end Here

namespace Conventions

/-- The tag of an expression is its text. -/
def printed (e : Expr) : Expanding (Option String) :=
  match e.noText? .expression with
  | some why => .error ⟨.unprintable why, e.location⟩
  | none => .ok (if e.hasText then some e.toText else none)

/-- Types have their own converters, expressions are tagged by their texts, places are strings. -/
def standard : Conventions := ⟨TypeExpr.converter, printed, Here.lift⟩

end Conventions

/-- The converter of a constant, named for its kind and applied to it. -/
def Constant.converted (c : Constant) (location : Option Location) : Expanding Expr :=
  match c.kind with
  | some k => .ok (.call (.identifier ("Conv.sexp_of_" ++ k.name) location) [.constant c] location)
  | none => .error ⟨.unsupportedLiteral, location⟩

/-- The type `t` of an annotation `t sexp_option`. -/
def TypeExpr.optional? : TypeExpr → Option TypeExpr
  | .named name [t] _ => if name == Converter.optionType then some t else none
  | _ => none

/-- What an expression with a type contributes. -/
def annotated (conventions : Conventions) (location : Option Location) (e : Expr) (t : TypeExpr) :
    Expanding Omittable :=
  match t.optional? with
  | some t => do
    let f ← conventions.converter t
    return .optional location e fun v => .call f [v] location
  | none => do
    let f ← conventions.converter t
    return .present (.call f [e] location)

/-- An expression with `[%here]` replaced by its place. -/
def Expr.placed (conventions : Conventions) (e : Expr) : Expanding Expr :=
  match e with
  | .extension "here" none l => conventions.place l
  | e => .ok e

/-- What an expression contributes: nothing if it is `""`, an annotated one as its type says, and
anything else as a string. -/
def Expr.contribution (conventions : Conventions) (e : Expr) : Expanding Omittable := do
  match ← e.placed conventions with
  | .other .missing => .error ⟨.missing, none⟩
  | .constant c =>
    if c.isEmptyString then return .absent else return .present (← c.converted c.location)
  | .constraint e t l => annotated conventions l e t
  | e => return .present (.call (.identifier "Conv.sexp_of_string" e.location) [e] e.location)

/-- What an argument contributes: tagged by its label, or by the text of an annotated expression;
the label `_` asks for no tag. -/
def Argument.contribution (conventions : Conventions) : Argument → Expanding Omittable
  | .other _ | .mk _ (.other .missing) => .error ⟨.missing, none⟩
  | .mk (.optional name) e => .error ⟨.optionalLabel name, e.location⟩
  | .mk .positional (.constraint e t l) => do
    let tag ← conventions.tag e
    return (← (Expr.constraint e t l).contribution conventions).map (Code.tagged l tag)
  | .mk .positional e => e.contribution conventions
  | .mk (.labelled name) e => do
    let item ← e.contribution conventions
    return if name == "_" then item else item.map (Code.tagged e.location (some name))

namespace Message

/-- The arguments of a payload: the function of an application is the first of them. -/
def arguments : Expr → List Argument
  | .apply f args _ => .mk .positional f :: args
  | e => [.mk .positional e]

/-- The code of a message with the given arguments. -/
def assemble (conventions : Conventions) (location : Option Location) (args : List Argument) :
    Expanding Expr :=
  return Omittable.assemble location (← args.mapM (·.contribution conventions))

/-- The code of `[%message]` and `[%message payload]`. -/
def expand (conventions : Conventions) (location : Option Location) (payload : Option Expr) :
    Expanding Expr :=
  match payload with
  | none => .ok (Code.list location (.list [] location))
  | some e => assemble conventions e.location (arguments e)

end Message
end MessageLang
