import MessageLang.Decimal.Binary64
/-!
# Reading decimal numbers

`readDecimal` takes a spelling such as `12.5e-3` apart into the number that its digits form and a
power of ten; `Double.ofChars` is the double nearest to it. An integer has a limit on its digits,
`maxDecimalDigits`; a double has none.
-/
namespace MessageLang

/-- The number that digits form. -/
def natOfDigits (ds : List Char) : Nat := ds.foldl (fun n c => 10 * n + (c.toNat - '0'.toNat)) 0

/-- The most decimal digits that an integer is read from, zeros at the front included. -/
def maxDecimalDigits : Nat := 4300

/-- The exponent part of a spelling: an exponent mark, a sign perhaps, and digits. -/
def readExponent : List Char → Int
  | _ :: '-' :: ds => -(natOfDigits ds : Int)
  | _ :: '+' :: ds => natOfDigits ds
  | _ :: ds => natOfDigits ds
  | [] => 0

/-- The digits behind the point, and what follows them. -/
def fractionPart : List Char → List Char × List Char
  | '.' :: rest => (rest.takeWhile Char.isDigit, rest.dropWhile Char.isDigit)
  | rest => ([], rest)

/-- The digits of a spelling as one number, and the power of ten that scales it. -/
def readDecimal (cs : List Char) : Nat × Int :=
  let whole := cs.takeWhile Char.isDigit
  let (fraction, rest) := fractionPart (cs.dropWhile Char.isDigit)
  (natOfDigits (whole ++ fraction), readExponent rest - fraction.length)

namespace Double

/-- The double nearest to an unsigned decimal spelling, negated if asked for. -/
def ofChars (negative : Bool) (cs : List Char) : Double :=
  let (digits, power) := readDecimal cs
  ofDecimal negative digits power

/-- Reads a spelling of `Double.toText`. -/
def ofText (text : String) : Double :=
  match text.toList with
  | ['n', 'a', 'n'] => .nan
  | ['i', 'n', 'f'] => .infinite false
  | ['-', 'i', 'n', 'f'] => .infinite true
  | '-' :: cs => ofChars true cs
  | cs => ofChars false cs

end Double
end MessageLang
