/-!
# Double-precision numbers

A binary64 number is kept as an exact value, so that reading a literal, converting an integer and
writing decimal digits are all done in `Nat` arithmetic.

* `roundHalfEven` rounds a quotient to the nearest natural number, a tie to the even one.
* `Double.ofRatio` is the binary64 number nearest to a quotient.
* `Double.ofDecimal` reads `digits * 10 ^ power`; `Double.ofInt?` refuses an integer too large.
-/
namespace MessageLang

/-- A binary64 number. A finite one is `significand * 2 ^ exponent`, negated if `negative`, in its
normal form: the significand is below `2 ^ 53`, and at least `2 ^ 52` unless the exponent is the
least one, `-1074`. -/
inductive Double where
  | nan
  | infinite (negative : Bool)
  | finite (negative : Bool) (significand : Nat) (exponent : Int)
deriving DecidableEq, Repr, Inhabited

/-- `2 ^ n` -/
def powerOfTwo (n : Nat) : Nat := Nat.pow 2 n

/-- `10 ^ n` -/
def powerOfTen (n : Nat) : Nat := Nat.pow 10 n

/-- The natural number nearest to `num / den`, of two equally near ones the even one. -/
def roundHalfEven (num den : Nat) : Nat :=
  let q := num / den
  let r := num % den
  if 2 * r < den || (2 * r == den && q % 2 == 0) then q else q + 1

namespace Double

/-- The exponent of the least positive number. -/
def leastExponent : Int := -1074

/-- The exponent of the largest finite numbers. -/
def greatestExponent : Int := 971

def zero (negative : Bool) : Double := .finite negative 0 leastExponent

/-- `num / (den * 2 ^ e)` as a quotient of natural numbers. -/
def scaleDown (num den : Nat) (e : Int) : Nat × Nat :=
  (num * powerOfTwo (-e).toNat, den * powerOfTwo e.toNat)

/-- The number nearest to `num / den`, a tie going to the even significand; beyond the largest
finite number it is an infinity. -/
def ofRatio (negative : Bool) (num den : Nat) : Double :=
  if num == 0 then zero negative else
  let guess := max ((num.log2 : Int) - (den.log2 : Int) - 53) leastExponent
  let (n, d) := scaleDown num den guess
  let e := if n / d < powerOfTwo 53 then guess else guess + 1
  let (n, d) := scaleDown num den e
  let m := roundHalfEven n d
  let (m, e) := if m == powerOfTwo 53 then (powerOfTwo 52, e + 1) else (m, e)
  if e > greatestExponent then .infinite negative else .finite negative m e

/-- The number nearest to `digits * 10 ^ power`. Powers so far out that the result can only be an
infinity or zero are settled without computing them. -/
def ofDecimal (negative : Bool) (digits : Nat) (power : Int) : Double :=
  if digits == 0 then zero negative
  else if power > 400 then .infinite negative
  else if power < -(400 + (digits.log2 : Int)) then zero negative
  else ofRatio negative (digits * powerOfTen power.toNat) (powerOfTen (-power).toNat)

/-- The number nearest to an integer, none if that is no finite number. -/
def ofInt? (n : Int) : Option Double :=
  match ofRatio (n < 0) n.natAbs 1 with
  | .infinite _ => none
  | x => some x

def neg : Double → Double
  | nan => nan
  | infinite s => infinite (!s)
  | finite s m e => finite (!s) m e

/-- Numeric equality: both zeros are equal, and a NaN equals nothing. -/
def numEq : Double → Double → Bool
  | finite s m e, finite s' m' e' => (m == 0 && m' == 0) || (s == s' && m == m' && e == e')
  | infinite s, infinite s' => s == s'
  | _, _ => false

/-- The integer that a number equals, if it is one. -/
def toInt? : Double → Option Int
  | finite s m e =>
    let (n, d) := (m * powerOfTwo e.toNat, powerOfTwo (-e).toNat)
    if n % d == 0 then some (if s then -((n / d : Nat) : Int) else (n / d : Nat)) else none
  | _ => none

end Double
end MessageLang
