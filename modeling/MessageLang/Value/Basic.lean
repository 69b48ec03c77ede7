import MessageLang.Decimal.Notation
import MessageLang.Sexp
/-!
# Values

What a message program computes with. The empty option is `none`, and the option that holds `v` is
`v` itself; a character is a string of length one; the unit is the empty tuple. Other objects that a
host might hand to a program are left out.
-/
namespace MessageLang

/-- The integer types. -/
inductive IntegerKind where
  | int
  | int32
  | int64
  | nativeint
deriving DecidableEq, Repr, Inhabited

namespace IntegerKind

def name : IntegerKind → String
  | int => "int"
  | int32 => "int32"
  | int64 => "int64"
  | nativeint => "nativeint"

/-- The width in bits, the sign included. -/
def width : IntegerKind → Nat
  | int => 63
  | int32 => 32
  | int64 => 64
  | nativeint => 64

/-- The letter that ends a literal of the kind. -/
def suffix : IntegerKind → String
  | int => ""
  | int32 => "l"
  | int64 => "L"
  | nativeint => "n"

def least (k : IntegerKind) : Int := -(powerOfTwo (k.width - 1) : Int)

def greatest (k : IntegerKind) : Int := (powerOfTwo (k.width - 1) : Int) - 1

/-- Whether an integer is in the kind's range. -/
def holds (k : IntegerKind) (n : Int) : Bool := k.least ≤ n && n ≤ k.greatest

end IntegerKind

/-- The types whose values are converted without looking inside them. -/
inductive Scalar where
  | integer (kind : IntegerKind)
  | float
  | char
  | string
  | bool
  | unit
  | anything
deriving DecidableEq, Repr

/-- The types that take converters for their parts. -/
inductive Family where
  | list
  | array
  | option
  | tuple
deriving DecidableEq, Repr

/-- The functions that every program can refer to. -/
inductive Builtin where
  /-- The atom with a given text. -/
  | makeAtom
  /-- The S-expression list of given S-expressions. -/
  | makeList
  /-- The converter of S-expressions, which returns its argument. -/
  | sexp
  /-- The constructor of the full option, which returns its argument. -/
  | some
  | intText
  | floatText
  | scalar (type : Scalar)
  | family (type : Family)
deriving DecidableEq, Repr

inductive Value where
  | none
  | bool (b : Bool)
  | int (n : Int)
  | float (x : Double)
  | str (text : String)
  | list (items : List Value)
  | tuple (items : List Value)
  | atom (text : String)
  /-- An S-expression list. Its items are S-expressions unless a program's own converter returned
  something else. -/
  | sexpList (items : List Value)
  /-- A record of an input, with its entries in order. -/
  | record (entries : List (String × Value))
  | builtin (b : Builtin)
  /-- A family applied to the converter of its parts, or for tuples to the collection of these. -/
  | converter (type : Family) (parts : Value)
deriving Repr, Inhabited

namespace Value

/-- The unit value. -/
def unit : Value := .tuple []

def isSexp : Value → Bool
  | .atom _ | .sexpList _ => true
  | _ => false

def isFunction : Value → Bool
  | .builtin _ | .converter _ _ => true
  | _ => false

/-- How many items a value has, if it is a collection. -/
def length? : Value → Option Nat
  | .str text => some text.length
  | .list items | .tuple items | .sexpList items => some items.length
  | .record entries => some entries.length
  | _ => Option.none

mutual
/-- The value of an S-expression. -/
def ofSexp : Sexp → Value
  | .atom text => .atom text
  | .list items => .sexpList (ofSexps items)

def ofSexps : List Sexp → List Value
  | [] => []
  | s :: rest => ofSexp s :: ofSexps rest
end

mutual
/-- The S-expression that a value is, if it is one through and through. -/
def toSexp? : Value → Option Sexp
  | .atom text => some (.atom text)
  | .sexpList items => (toSexps? items).map .list
  | _ => Option.none

def toSexps? : List Value → Option (List Sexp)
  | [] => some []
  | v :: rest => do return (← toSexp? v) :: (← toSexps? rest)
end

/-- The integer that a value counts, if it is a whole number or a truth value. -/
def integral? : Value → Option Int
  | .bool b => some (if b then 1 else 0)
  | .int n => some n
  | .float x => x.toInt?
  | _ => Option.none

mutual
/-- Equality of values: numbers by what they count (a truth value counts as 0 or 1), records
whatever the order of their entries, all else part by part. -/
def equal : Value → Value → Bool
  | .none, .none => true
  | .str a, .str b => a == b
  | .list a, .list b => equalAll a b
  | .tuple a, .tuple b => equalAll a b
  | .atom a, .atom b => a == b
  | .sexpList a, .sexpList b => equalAll a b
  | .record a, .record b => a.length == b.length && equalEntries a b
  | .builtin a, .builtin b => a == b
  | .float x, .float y => x.numEq y
  | a, b => match a.integral?, b.integral? with
    | some m, some n => m == n
    | _, _ => false

def equalAll : List Value → List Value → Bool
  | [], [] => true
  | a :: as, b :: bs => equal a b && equalAll as bs
  | _, _ => false

def equalEntries : List (String × Value) → List (String × Value) → Bool
  | [], _ => true
  | (k, v) :: rest, entries =>
    (match entries.lookup k with
      | some w => equal v w
      | Option.none => false) && equalEntries rest entries
end

end Value
end MessageLang
