import MessageLang.Syntax.Literal
import MessageLang.Text.Blank
import MessageLang.Text.Digit
/-!
# Numbers that are written freely

A text that is meant as a number need not be a lexeme. It may have white space around it, a sign,
and digits of any script; behind a radix mark there may be a sign and the mark once more; a float
may be a word for an infinity or for no number. The limit on decimal digits holds of integers that
are written so too; margins, signs and underscores do not count.

* `Literal.freeInteger`, `Literal.freeFloat`: the constant of such a text, or what is wrong with it.
-/
namespace MessageLang

/-- Why a text is no number. Only an error of a literal that does not escape is reported; all else
stands for exceptions that escape. -/
inductive NumberFault where
  /-- There is no text. -/
  | empty
  | notANumber
  | literal (error : LiteralError)
deriving DecidableEq, Repr

namespace Literal

/-- Whether a character may stand around a number: white space but the information separators. -/
def isMargin (c : Char) : Bool := Text.isSpace c && !(0x1c ≤ c.toNat && c.toNat ≤ 0x1f)

/-- A text without the white space around it, with all digits those of ASCII. -/
def plain (text : List Char) : List Char :=
  (((text.dropWhile isMargin).reverse.dropWhile isMargin).reverse).map Text.asciiDigit

/-- Whether a text has a minus sign, and what stands behind its sign. -/
def splitSign : List Char → Bool × List Char
  | '-' :: rest => (true, rest)
  | '+' :: rest => (false, rest)
  | rest => (false, rest)

/-- The digits of a radix, which may have its mark before them. -/
def markedDigits (radix : Nat) (text : List Char) : List Char :=
  let (marked, digits) := splitRadix text
  if marked == radix then digits else text

/-- Whether a text consists of digits of a radix. -/
def areDigits (radix : Nat) (text : List Char) : Bool :=
  !text.isEmpty && text.all fun c => (Text.Escape.hexValue? c).any (· < radix)

/-- The integer that a text stands for in a radix. -/
def readInteger (radix : Nat) (text : List Char) : Except NumberFault Int :=
  let (negative, rest) := splitSign (plain text)
  let digits := markedDigits radix rest
  if areDigits radix digits then
    match magnitude radix digits with
    | .ok n => .ok (if negative then -n else n)
    | .error e => .error (.literal e)
  else .error .notANumber

/-- The constant of an integer with a kind suffix and a radix mark. -/
def freeInteger (negative : Bool) (text : List Char) (location : Option Location) :
    Except NumberFault Constant :=
  if text.isEmpty then .error .empty
  else
    let (kind, digits) := splitSuffix text
    let (radix, digits) := splitRadix (digits.filter (· != '_'))
    match readInteger radix digits with
    | .error fault => .error fault
    | .ok n =>
      match inKind kind radix (if negative then -n else n) with
      | .ok n => .ok ⟨.int n, some (.integer kind), some (spelling negative text), location⟩
      | .error e => .error (.literal e)

/-- Whether a text consists of an exponent mark, a sign perhaps, and digits. -/
def isExponent : List Char → Bool
  | mark :: rest => (mark == 'e' || mark == 'E') && areDigits 10 (splitSign rest).2
  | [] => false

/-- Whether a text is a decimal number: digits with one point at most, and an exponent perhaps. -/
def isDecimal (text : List Char) : Bool :=
  let whole := text.takeWhile Char.isDigit
  let (fraction, rest) := fractionPart (text.dropWhile Char.isDigit)
  !(whole ++ fraction).isEmpty && (rest.isEmpty || isExponent rest)

/-- The double that a text stands for. -/
def readFloat? (text : List Char) : Option Double :=
  let (negative, rest) := splitSign (plain text)
  match String.ofList (rest.map Char.toLower) with
  | "inf" | "infinity" => some (.infinite negative)
  | "nan" => some .nan
  | _ => if isDecimal rest then some (Double.ofChars negative rest) else none

/-- The constant of a float. -/
def freeFloat (negative : Bool) (text : List Char) (location : Option Location) :
    Except NumberFault Constant :=
  match readFloat? (text.filter (· != '_')) with
  | none => .error .notANumber
  | some x =>
    let x := if negative then x.neg else x
    .ok ⟨.float x, some .float, some (spelling negative text), location⟩

end Literal
end MessageLang
