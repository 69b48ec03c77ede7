import MessageLang.Decimal.Binary64
/-!
# Decimal digits of a double-precision number

* `decimalNat`, `decimalInt`: the decimal numeral of an integer. Integers of any size are written;
  the limit on digits, `maxDecimalDigits`, is one of reading only.
* `Double.shortest`: the fewest significant digits that read back as the same number; among those
  the nearest to it.
* `Double.rounded`: the value rounded to a given number of significant digits.
-/
namespace MessageLang

/-- The decimal numeral of a natural number. -/
def decimalNat (n : Nat) : String := String.ofList (Nat.toDigits 10 n)

/-- The decimal numeral of an integer of any size, with a minus sign if it is negative. -/
def decimalInt (n : Int) : String :=
  if n < 0 then "-" ++ decimalNat n.natAbs else decimalNat n.natAbs

/-- The decimal numeral of a number, filled with zeros on the left up to a width. -/
def paddedNat (width n : Nat) : String :=
  let ds := Nat.toDigits 10 n
  String.ofList (List.replicate (width - ds.length) '0' ++ ds)

/-- Significant digits: `d₁.d₂d₃… * 10 ^ exponent`, without zeros at the end. -/
structure Digits where
  digits : List Char
  exponent : Int
deriving DecidableEq, Repr

namespace Digits

/-- The significant digits of `n * 10 ^ power`. -/
def ofNat (n : Nat) (power : Int) : Digits :=
  let ds := Nat.toDigits 10 n
  ⟨(ds.reverse.dropWhile (· == '0')).reverse, power + (ds.length : Int) - 1⟩

end Digits

namespace Double

/-- The least `j` with `den ≤ num * 10 ^ j`, looked for up to `fuel`. -/
def leadingZeros : (fuel num den : Nat) → Nat
  | 0, _, _ => 0
  | fuel + 1, num, den => if den ≤ num then 0 else leadingZeros fuel (num * 10) den + 1

/-- The exponent of the first digit of `num / den`. -/
def decimalExponent (num den : Nat) : Int :=
  if den ≤ num then ((Nat.toDigits 10 (num / den)).length : Int) - 1
  else -(leadingZeros (den.log2 + 1) num den : Int)

/-- `num / den` on the grid of the multiples of `10 ^ power`. -/
def onGrid (num den : Nat) (power : Int) : Nat × Nat :=
  (num * powerOfTen (-power).toNat, den * powerOfTen power.toNat)

/-- The quotients that read back as `significand * 2 ^ exponent`, over one denominator: the ends of
the interval and the value itself. The ends belong to it if the significand is even. -/
structure Interval where
  low : Nat
  value : Nat
  high : Nat
  den : Nat
  closed : Bool

def interval (significand : Nat) (exponent : Int) : Interval :=
  let up := powerOfTwo (exponent - 2).toNat
  -- below a power of two the grid of doubles is twice as fine
  let gap := if significand == powerOfTwo 52 && exponent > leastExponent then 1 else 2
  { low := (4 * significand - gap) * up
    value := 4 * significand * up
    high := (4 * significand + 2) * up
    den := powerOfTwo (2 - exponent).toNat
    closed := significand % 2 == 0 }

/-- Whether `c * 10 ^ power` lies in the interval. -/
def Interval.holds (i : Interval) (c : Nat) (power : Int) : Bool :=
  let x := c * powerOfTen power.toNat * i.den
  let low := i.low * powerOfTen (-power).toNat
  let high := i.high * powerOfTen (-power).toNat
  if i.closed then low ≤ x && x ≤ high else low < x && x < high

/-- The multiple of `10 ^ power` in the interval that is nearest to the value: one of its two
neighbours on that grid, if any. -/
def Interval.nearest? (i : Interval) (power : Int) : Option Nat :=
  let (n, d) := onGrid i.value i.den power
  let below := n / d
  match i.holds below power, i.holds (below + 1) power with
  | true, true => some (roundHalfEven n d)
  | true, false => some below
  | false, true => some (below + 1)
  | false, false => none

/-- The fewest digits that read back as the number, and of those the nearest to it. Seventeen
always suffice. -/
def shortest (significand : Nat) (exponent : Int) : Digits :=
  let i := interval significand exponent
  let top := decimalExponent i.value i.den
  let found := (List.range 17).findSome? fun (k : Nat) =>
    (i.nearest? (top - k)).map fun c => Digits.ofNat c (top - k)
  found.getD ⟨['0'], 0⟩

/-- The value rounded to `count` significant digits, a tie going to the even last digit: the digits
as a number and the power of ten that scales it. -/
def rounded (count significand : Nat) (exponent : Int) : Nat × Int :=
  let num := significand * powerOfTwo exponent.toNat
  let den := powerOfTwo (-exponent).toNat
  let power := decimalExponent num den - (count : Int) + 1
  let (n, d) := onGrid num den power
  (roundHalfEven n d, power)

end Double
end MessageLang
