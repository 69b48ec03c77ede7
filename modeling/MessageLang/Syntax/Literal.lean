import MessageLang.Decimal.Reading
import MessageLang.Syntax.Basic
import MessageLang.Text.Escape
/-!
# Literals

What the lexeme of a literal stands for.

* An integer has a radix mark, underscores and a kind suffix. Decimal ones must be in the kind's
  range; the others may fill the kind's width, the top bit counting as the sign. Decimal ones have a
  limit on their digits too, and what is over the limit ends the program by an exception.
* A character or string has escapes. A decimal escape above 255 is refused.

Numbers keep their spelling, with the minus sign that stood before them.
-/
namespace MessageLang

/-- Why a lexeme is no literal. -/
inductive LiteralError where
  | outOfRange (kind : IntegerKind)
  /-- A decimal escape above 255, given by its digits. -/
  | illegalEscape (digits : String)
  /-- An integer with more decimal digits than one is read from, in whatever range it is. This
  stands for an exception that escapes, see `LiteralError.escapes`. -/
  | tooManyDigits
deriving DecidableEq, Repr

namespace LiteralError

/-- Whether the error stands for an exception that escapes. Its message is then never reported, and
neither are the code and the place of a `ParseError` that holds it. -/
def escapes : LiteralError → Bool
  | tooManyDigits => true
  | outOfRange _ | illegalEscape _ => false

def message : LiteralError → String
  | outOfRange kind =>
    "integer literal exceeds the range of representable integers of type " ++ kind.name
  | illegalEscape digits => "illegal escape sequence \\" ++ digits
  | tooManyDigits => "integer literal has too many digits"

end LiteralError

namespace Literal

/-- The kind that the last character of an integer lexeme stands for, and the lexeme without it. -/
def splitSuffix (text : List Char) : IntegerKind × List Char :=
  match text.getLast? with
  | some 'l' => (.int32, text.dropLast)
  | some 'L' => (.int64, text.dropLast)
  | some 'n' => (.nativeint, text.dropLast)
  | _ => (.int, text)

/-- The radix that the start of an integer lexeme stands for, and the digits behind it. -/
def splitRadix : List Char → Nat × List Char
  | '0' :: 'x' :: ds | '0' :: 'X' :: ds => (16, ds)
  | '0' :: 'o' :: ds | '0' :: 'O' :: ds => (8, ds)
  | '0' :: 'b' :: ds | '0' :: 'B' :: ds => (2, ds)
  | ds => (10, ds)

/-- The number that digits form in a radix. -/
def digitsValue (radix : Nat) (ds : List Char) : Nat :=
  ds.foldl (fun n c => radix * n + (Text.Escape.hexValue? c).getD 0) 0

/-- The number that digits form in a radix, unless they are decimal and too many. -/
def magnitude (radix : Nat) (ds : List Char) : Except LiteralError Nat :=
  if radix == 10 && maxDecimalDigits < ds.length then .error .tooManyDigits
  else .ok (digitsValue radix ds)

/-- The number congruent to `n` modulo the kind's width that lies in its range. -/
def wrap (k : IntegerKind) (n : Int) : Int := (n - k.least) % powerOfTwo k.width + k.least

/-- A number as the lexeme of the given radix stands for it: without a radix mark it is itself,
with one it may fill the kind's width. -/
def wrapped (k : IntegerKind) (radix : Nat) (n : Int) : Int :=
  if radix != 10 && n.natAbs ≤ powerOfTwo k.width - 1 then wrap k n else n

/-- The spelling of a number: its lexeme behind its minus sign, if it has one. -/
def spelling (negative : Bool) (text : List Char) : String :=
  String.ofList (if negative then '-' :: text else text)

/-- A number of the given radix as a value of the kind, if the kind has it. -/
def inKind (k : IntegerKind) (radix : Nat) (n : Int) : Except LiteralError Int :=
  let n := wrapped k radix n
  if k.holds n then .ok n else .error (.outOfRange k)

/-- The kind and value of an integer lexeme. -/
def integerValue (negative : Bool) (text : List Char) :
    Except LiteralError (IntegerKind × Int) := do
  let (kind, digits) := splitSuffix text
  let (radix, digits) := splitRadix (digits.filter (· != '_'))
  let n : Int ← magnitude radix digits
  return (kind, ← inKind kind radix (if negative then -n else n))

/-- The constant of an integer lexeme. -/
def integer (negative : Bool) (text : List Char) (location : Option Location) :
    Except LiteralError Constant := do
  let (kind, n) ← integerValue negative text
  return ⟨.int n, some (.integer kind), some (spelling negative text), location⟩

/-- The constant of a float lexeme. -/
def float (negative : Bool) (text : List Char) (location : Option Location) : Constant :=
  ⟨.float (Double.ofChars negative (text.filter (· != '_'))), some .float,
    some (spelling negative text), location⟩

/-- What stands between the first and the last character. -/
def between (text : List Char) : List Char := (text.drop 1).dropLast

/-- The constant of a character or string lexeme. -/
def quoted (kind : LiteralKind) (text : List Char) (location : Option Location) :
    Except LiteralError Constant :=
  match Text.Escape.decode (between text) with
  | .ok chars => .ok ⟨.str (String.ofList chars), some kind, none, location⟩
  | .error digits => .error (.illegalEscape digits)

end Literal
end MessageLang
