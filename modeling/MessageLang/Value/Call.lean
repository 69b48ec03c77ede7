import MessageLang.Value.Show
/-!
# Calling a value

The functions of the language are the conversions to S-expressions and a few more. The converter of
a family is called twice: with the converter of the parts, then with the value.

* `Scalar.convert`: the conversion of a value that has no parts.
* `Value.call`: the result of applying one value to another.

What is refused is shown in a message, integers in decimal without a limit on their digits.
-/
namespace MessageLang

/-- Why a conversion refuses its argument. -/
inductive ConversionFault where
  /-- The argument is not of the expected type. -/
  | mismatch (expected : String) (found : Value)
  /-- The integer is out of the kind's range. -/
  | outOfRange (n : Int) (kind : IntegerKind)

/-- A misuse of functions that no conversion checks for. -/
inductive Defect where
  /-- What stands where a converter is needed is no function. -/
  | notAFunction
  /-- What stands where the converters of a tuple are needed is no collection of them. -/
  | notACollection
  /-- A tree stands where it has no meaning. -/
  | malformedTree
  /-- The integer is beyond the largest double. -/
  | beyondDoubles
  /-- An S-expression list holds something else than S-expressions. -/
  | improperSexp
deriving DecidableEq, Repr

def Defect.message : Defect → String
  | notAFunction => "the program calls a value that is no function"
  | notACollection => "the parts of a tuple converter are no collection"
  | malformedTree => "the program holds a tree that has no value"
  | beyondDoubles => "an integer is too large for a float"
  | improperSexp => "an S-expression list holds something else than S-expressions"

inductive CallFault where
  | refused (fault : ConversionFault)
  | defect (defect : Defect)

namespace ConversionFault

/-- What is said of a refused argument, however many digits its integers have. -/
def message : ConversionFault → String
  | mismatch expected found =>
    "expected " ++ expected ++ ", got " ++ found.foundName ++ " " ++ found.show
  | outOfRange n kind => decimalInt n ++ " does not fit in " ++ kind.name

end ConversionFault

/-- Refuses a value that is not of the expected type. -/
def mismatch {α : Type} (expected : String) (found : Value) : Except CallFault α :=
  .error (.refused (.mismatch expected found))

/-- A number as a double. -/
def Value.toDouble : Value → Except CallFault Double
  | .float x => .ok x
  | .int n => match Double.ofInt? n with
    | .some x => .ok x
    | .none => .error (.defect .beyondDoubles)
  | v => mismatch "float" v

/-- The decimal numeral of an integer of the given kind. -/
def IntegerKind.numeral (k : IntegerKind) : Value → Except CallFault String
  | .int n =>
    if k.holds n then .ok (decimalInt n) else .error (.refused (.outOfRange n k))
  | v => mismatch k.name v

namespace Scalar

/-- The S-expression of a value without parts. -/
def convert (type : Scalar) (v : Value) : Except CallFault Value :=
  match type, v with
  | integer k, _ => return .atom (← k.numeral v)
  | float, _ => return .atom (← v.toDouble).toExactText
  | char, .str text => if text.length == 1 then .ok (.atom text) else mismatch "char" v
  | char, _ => mismatch "char" v
  | string, .str text => .ok (.atom text)
  | string, _ => mismatch "string" v
  | bool, .bool b => .ok (.atom (if b then "true" else "false"))
  | bool, _ => mismatch "bool" v
  | unit, .tuple [] => .ok (.sexpList [])
  | unit, _ => mismatch "unit" v
  | anything, _ => .ok (.atom "<opaque>")

end Scalar

/-- Twelve significant digits, with a point at the end of a whole number. -/
def floatText (x : Double) : String :=
  let text := x.toTwelveDigits
  if text.toList.all fun c => c == '-' || c.isDigit then text ++ "." else text

namespace Builtin

/-- The result of a built-in function. -/
def call (b : Builtin) (v : Value) : Except CallFault Value :=
  match b with
  | makeAtom => match v with
    | .str text => .ok (.atom text)
    | _ => mismatch "string" v
  | makeList => match v with
    | .list items =>
      if items.all Value.isSexp then .ok (.sexpList items) else mismatch "Sexp.t list" v
    | _ => mismatch "Sexp.t list" v
  | sexp => if v.isSexp then .ok v else mismatch "Sexp.t" v
  | some => .ok v
  | intText => return .str (← IntegerKind.int.numeral v)
  | floatText => return .str (MessageLang.floatText (← v.toDouble))
  | scalar type => type.convert v
  | family type => .ok (.converter type v)

end Builtin

/-- The items of a list or of a tuple other than the unit. -/
def Value.arrayItems? : Value → Option (List Value)
  | .list items => some items
  | .tuple [] => Option.none
  | .tuple items => some items
  | _ => Option.none

/-- The items of a list or tuple of a given length. -/
def Value.tupleItems? (length : Nat) : Value → Option (List Value)
  | .list items | .tuple items => if items.length == length then some items else Option.none
  | _ => Option.none

/-- What a tuple converter was given instead of a collection of `length` parts. -/
def tupleMismatch {α : Type} (length : Nat) (v : Value) : Except CallFault α :=
  mismatch (decimalNat length ++ "-tuple") v

mutual
/-- The result of applying a value to an argument. -/
def Value.call : Value → Value → Except CallFault Value
  | .builtin b, v => b.call v
  | .converter .list part, v =>
    match v with
    | .list items => return .sexpList (← items.mapM fun item => part.call item)
    | _ => mismatch "list" v
  | .converter .array part, v =>
    match v.arrayItems? with
    | .some items => return .sexpList (← items.mapM fun item => part.call item)
    | .none => mismatch "array" v
  | .converter .option part, v =>
    match v with
    | .none => .ok (.sexpList [])
    | _ => return .sexpList [← part.call v]
  | .converter .tuple (.list parts), v =>
    match v.tupleItems? parts.length with
    | .some items => return .sexpList (← callEach parts items)
    | .none => tupleMismatch parts.length v
  | .converter .tuple (.tuple parts), v =>
    match v.tupleItems? parts.length with
    | .some items => return .sexpList (← callEach parts items)
    | .none => tupleMismatch parts.length v
  | .converter .tuple parts, v =>
    -- the parts of any other collection are no functions
    match parts.length? with
    | .none => .error (.defect .notACollection)
    | .some length => match v.tupleItems? length with
      | .none => tupleMismatch length v
      | .some items => match parts, items with
        | .sexpList _, _ => .error (.defect .notACollection)
        | _, [] => .ok (.sexpList [])
        | _, _ => .error (.defect .notAFunction)
  | _, _ => .error (.defect .notAFunction)

/-- Each function applied to the item in its place. -/
def callEach : List Value → List Value → Except CallFault (List Value)
  | f :: fs, v :: vs => do
    let result ← f.call v
    return result :: (← callEach fs vs)
  | _, _ => .ok []
end

end MessageLang
