import MessageLang.Expansion.Failure
import MessageLang.Syntax.Traversal
/-!
# Converters of types

`TypeExpr.converter t` is the expression of the function that converts values of type `t` to
S-expressions: `int list` gives `sexp_of_list sexp_of_int`, and `int * string` gives
`Conv.sexp_of_tuple [sexp_of_int; sexp_of_string]`. The result always takes exactly one value.

* `TypeExpr.converter`: the converter, or why there is none.
* `Node.noConverter?`: why what stands in the place of a type leaves it without a converter.
-/
namespace MessageLang

namespace Converter

/-- The type that marks an argument as optional. -/
def optionType : String := "sexp_option"

/-- The type whose values are not looked into. -/
def hiddenType : String := "sexp_opaque"

/-- The name under which the converter of a marker type goes. -/
def unmarked (base : String) : String :=
  if base == optionType then "option"
  else if base == hiddenType then "opaque"
  else base

/-- The last part of a dotted name. -/
def baseOf (name : List Char) : List Char := (name.reverse.takeWhile (· != '.')).reverse

/-- The parts of a dotted name before the last, with their points. -/
def pathOf (name : List Char) : List Char := (name.reverse.dropWhile (· != '.')).reverse

/-- The name of a type's converter: `M.t` has `M.sexp_of_t`. -/
def name (typeName : String) : String :=
  let path := String.ofList (pathOf typeName.toList)
  let base := String.ofList (baseOf typeName.toList)
  path ++ "sexp_of_" ++ (if path.isEmpty then unmarked base else base)

/-- The name of the converter of tuples. -/
def tupleName : String := "Conv.sexp_of_tuple"

end Converter

/-! ## Trees without a converter -/

/-- Why a constant is no type. -/
def Constant.notAType (c : Constant) : ExpansionFailure := ⟨.notAType, c.location⟩

/-- A tuple type has at least two components. -/
def isShortTuple (ts : List TypeExpr) : Bool := ts.length < 2

mutual
/-- Why a type has no converter, if it has none. What a hidden type hides is passed over. -/
def TypeExpr.noConverter? : TypeExpr → Option ExpansionFailure
  | .named name args _ => if name == Converter.hiddenType then none else typesNoConverter? args
  | .tuple ts l => if isShortTuple ts then some ⟨.shortTupleType, l⟩ else typesNoConverter? ts
  | .other n => n.noConverter?

def typesNoConverter? : List TypeExpr → Option ExpansionFailure
  | [] => none
  | t :: rest => t.noConverter? <|> typesNoConverter? rest

/-- Why a pattern, in the place of a type, keeps it from having a converter: patterns are not
entered. -/
def Pattern.noConverter? : Pattern → Option ExpansionFailure
  | .other n => n.noConverter?
  | _ => none

/-- Why an expression, in the place of a type, keeps it from having a converter: the first constant
or name in it is blamed, or the first type in it that has no converter. -/
def Expr.noConverter? : Expr → Option ExpansionFailure
  | .constant c => some c.notAType
  | .identifier name l => some ⟨.nameNotAType name, l⟩
  | .apply f args _ =>
    f.noConverter? <|> (if args.all (·.expr?.isSome) then none else some ⟨.missing, none⟩) <|>
      argumentsNoConverter? args
  | .constraint e t _ => e.noConverter? <|> t.noConverter?
  | .extension _ none _ | .unit _ => none
  | .extension _ (some e) _ => e.noConverter?
  | .tuple es _ | .list es _ => exprsNoConverter? es
  | .binary left _ right _ => left.noConverter? <|> right.noConverter?
  | .cons head tail _ => head.noConverter? <|> tail.noConverter?
  | .matching e arms _ => e.noConverter? <|> armsNoConverter? arms
  | .other n => n.noConverter?

def exprsNoConverter? : List Expr → Option ExpansionFailure
  | [] => none
  | e :: rest =>
    (if Walk.reading.skips e.toNode then none else e.noConverter?) <|> exprsNoConverter? rest

def Argument.noConverter? : Argument → Option ExpansionFailure
  | .mk _ e | .other (.statement (.expression e _)) | .other (.expr (.constraint e _ _)) =>
    if Walk.reading.skips e.toNode then none else e.noConverter?
  | .other _ => some ⟨.missing, none⟩

def argumentsNoConverter? : List Argument → Option ExpansionFailure
  | [] => none
  | a :: rest => a.noConverter? <|> argumentsNoConverter? rest

def Arm.noConverter? : Arm → Option ExpansionFailure
  | .mk p body _ => p.noConverter? <|> body.noConverter?
  | .other n => n.noConverter?

def armsNoConverter? : List Arm → Option ExpansionFailure
  | [] => none
  | a :: rest =>
    (if Walk.reading.skips a.toNode then none else a.noConverter?) <|> armsNoConverter? rest

def Statement.noConverter? : Statement → Option ExpansionFailure
  | .binding _ e _ | .expression e _ => e.noConverter?
  | .other n => n.noConverter?

def statementsNoConverter? : List Statement → Option ExpansionFailure
  | [] => none
  | s :: rest =>
    (if Walk.reading.skips s.toNode then none else s.noConverter?) <|> statementsNoConverter? rest

/-- Why a part, in the place of a type, keeps it from having a converter. -/
def Node.noConverter? : Node → Option ExpansionFailure
  | .program ⟨statements, _⟩ => statementsNoConverter? statements
  | .statement s => s.noConverter?
  | .expr e => e.noConverter?
  | .argument _ | .missing => some ⟨.missing, none⟩
  | .arm a => a.noConverter?
  | .pattern p => p.noConverter?
  | .type t => t.noConverter?
end

/-! ## Converters -/

mutual
/-- The expression of a type's converter. What is no type and has no fault in it gives none. -/
def TypeExpr.converter : TypeExpr → Expanding Expr
  | .named name args l =>
    let f := Expr.identifier (Converter.name name) l
    -- the converter of a hidden type takes none for the type it hides
    if args.isEmpty || name == Converter.hiddenType then .ok f
    else return .call f (← typeConverters args) l
  | .tuple ts l =>
    if isShortTuple ts then .error ⟨.shortTupleType, l⟩
    else return .call (.identifier Converter.tupleName l) [.list (← typeConverters ts) l] l
  | .other n =>
    match n.noConverter? with
    | some failure => .error failure
    | none => .ok (.other .missing)

/-- The converters of types, in order. -/
def typeConverters : List TypeExpr → Expanding (List Expr)
  | [] => .ok []
  | t :: rest => do
    let f ← t.converter
    return f :: (← typeConverters rest)
end

end MessageLang
