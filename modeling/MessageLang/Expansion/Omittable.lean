import MessageLang.Syntax.Basic
/-!
# What an argument contributes

An argument of a message contributes an S-expression always, or if an option turns out to be full,
or never. The first part builds the code that these contributions consist of.

* `Omittable.map f`: the contribution with `f` around it.
* `Omittable.onto`: the code that puts a contribution in front of a list.
-/
namespace MessageLang

namespace Code

/-- The atom of a string. -/
def atom (location : Option Location) (e : Expr) : Expr :=
  .call (.identifier "Sexp.Atom" location) [e] location

/-- The S-expression list of a list. -/
def list (location : Option Location) (e : Expr) : Expr :=
  .call (.identifier "Sexp.List" location) [e] location

/-- A single item stands for itself; any other number of them for the list of them. -/
def inlined (location : Option Location) (items : List Expr) : Expr :=
  match items with
  | [e] => e
  | _ => list location (.list items location)

/-- A list with one more item in front, written as a list literal as long as the rest is one. -/
def prepend (location : Option Location) (head tail : Expr) : Expr :=
  match tail with
  | .list es _ => .list (head :: es) location
  | _ => .cons head tail location

/-- The string constant of a tag; what has no text of its own is tagged by the empty option. -/
def tagConstant (location : Option Location) : Option String → Constant
  | some tag => .ofString tag location
  | none => ⟨.none, some .string, none, location⟩

/-- An S-expression behind a tag. -/
def tagged (location : Option Location) (tag : Option String) (e : Expr) : Expr :=
  inlined location [atom location (.constant (tagConstant location tag)), e]

end Code

/-- What an argument contributes to a message. -/
inductive Omittable where
  /-- An S-expression. -/
  | present (expr : Expr)
  /-- What `wrap` makes of the value that the option `expr` holds; nothing if it is empty. -/
  | optional (location : Option Location) (expr : Expr) (wrap : Expr → Expr)
  /-- Nothing. -/
  | absent

namespace Omittable

/-- The contribution with `f` around it. -/
def map (f : Expr → Expr) : Omittable → Omittable
  | present e => present (f e)
  | optional l e wrap => optional l e (fun v => f (wrap v))
  | absent => absent

def isOptional : Omittable → Bool
  | optional _ _ _ => true
  | _ => false

/-- The variables of generated matches. -/
def contentName : String := "v"
def tailName : String := "tl"
def headName : String := "h"
def resultName : String := "res"

/-- The code of a list with a contribution in front. An option and the list are matched together, so
that neither is evaluated in the scope of the other. -/
def onto (location : Option Location) (tail : Expr) : Omittable → Expr
  | present e => Code.prepend location e tail
  | absent => tail
  | optional _ e wrap =>
    let rest := Expr.identifier tailName location
    let full := Expr.cons (wrap (.identifier contentName location)) rest location
    .matching (.tuple [e, tail] location)
      [.mk (.tuple [.variant "None" none none, .var tailName none] none) rest location,
        .mk (.tuple [.variant "Some" (some (.var contentName none)) none, .var tailName none] none)
          full location]
      location

/-- The code that makes an S-expression of a list: of a single item the item itself, of any other
list the list of its items. -/
def collapse (location : Option Location) (e : Expr) : Expr :=
  let many := Pattern.cons (.wildcard none) (.cons (.wildcard none) (.wildcard none) none) none
  .matching e
    [.mk (.list [.var headName none] none) (.identifier headName location) location,
      .mk (.aliased (.alternatives [.list [] none, many] none) resultName none)
        (Code.list location (.identifier resultName location)) location]
    location

/-- The code of the S-expression of contributions. If none is optional, whether there is a single
one is decided here, otherwise by the code. -/
def assemble (location : Option Location) (items : List Omittable) : Expr :=
  let e := items.foldr (fun item tail => item.onto location tail) (.list [] location)
  if items.any isOptional then collapse location e
  else match e with
    | .list [item] _ => item
    | _ => Code.list location e

end Omittable
end MessageLang
