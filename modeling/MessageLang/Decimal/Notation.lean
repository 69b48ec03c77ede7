import MessageLang.Decimal.Digits
/-!
# Decimal spellings of a double-precision number

A `NumberStyle` holds the choices of one spelling; `NumberStyle.write` lays digits out in it.

* `Double.toText`: the shortest digits that read back, `1e+16` from sixteen places on.
* `Double.general`: a fixed number of significant digits, as few as needed.
* `Double.toExactText`: fifteen significant digits if these read back, otherwise seventeen.
-/
namespace MessageLang

/-- The choices of a decimal spelling. -/
structure NumberStyle where
  /-- Exponents from this one on are written with an exponent mark. -/
  scientificFrom : Int
  mark : Char
  /-- What follows a number without a fraction, written positionally. -/
  wholeEnd : String
  nan : String
  infinity : String
deriving Repr

namespace NumberStyle

/-- Digits with a point behind the first `k`. -/
def pointed (ds : List Char) (k : Nat) (wholeEnd : String) : String :=
  let whole := String.ofList (ds.take k ++ List.replicate (k - ds.length) '0')
  match ds.drop k with
  | [] => whole ++ wholeEnd
  | rest => whole ++ "." ++ String.ofList rest

/-- Digits of a positive number: positional between `1e-4` and the style's limit, otherwise with an
exponent of at least two digits. -/
def write (style : NumberStyle) (d : Digits) : String :=
  if d.exponent < -4 || d.exponent ≥ style.scientificFrom then
    pointed d.digits 1 "" ++ String.singleton style.mark ++ (if d.exponent < 0 then "-" else "+") ++
      paddedNat 2 d.exponent.natAbs
  else if d.exponent < 0 then
    "0." ++ String.ofList (List.replicate (d.exponent.natAbs - 1) '0' ++ d.digits)
  else pointed d.digits (d.exponent.toNat + 1) style.wholeEnd

/-- A number in this style, its digits chosen by `digits`. -/
def render (style : NumberStyle) (digits : Nat → Int → Digits) : Double → String
  | .nan => style.nan
  | .infinite negative => (if negative then "-" else "") ++ style.infinity
  | .finite negative m e =>
    (if negative then "-" else "") ++ style.write (if m == 0 then ⟨['0'], 0⟩ else digits m e)

end NumberStyle

namespace Double

/-- The style of a number shown as a value. -/
def plainStyle : NumberStyle := ⟨16, 'e', ".0", "nan", "inf"⟩

/-- The shortest digits that read back: `1.0`, `1e+16`, `1.5e-07`, `nan`, `-inf`. -/
def toText (x : Double) : String := plainStyle.render shortest x

/-- At most `count` significant digits, without zeros at the end of a fraction. -/
def general (count : Nat) (style : NumberStyle) (x : Double) : String :=
  style.render (fun m e => let (n, p) := rounded count m e; Digits.ofNat n p) x

/-- Twelve significant digits. -/
def toTwelveDigits (x : Double) : String := x.general 12 ⟨12, 'e', "", "nan", "inf"⟩

def capitalStyle (count : Nat) : NumberStyle := ⟨count, 'E', "", "NAN", "INF"⟩

/-- Whether the first fifteen significant digits read back as the number. -/
def readsBackFromFifteen : Double → Bool
  | finite negative m e =>
    let (n, p) := rounded 15 m e
    m == 0 || ofDecimal negative n p == finite negative m e
  | _ => true

/-- Fifteen significant digits if these read back, otherwise seventeen; written in capitals. -/
def toExactText (x : Double) : String :=
  let count := if x.readsBackFromFifteen then 15 else 17
  x.general count (capitalStyle count)

/-- An integer as the number nearest to it is written: with fifteen digits only if these stand for
the integer itself. -/
def exactTextOfInt? (n : Int) : Option String :=
  (ofInt? n).map fun x =>
    if x.toInt? == some n then x.toExactText else x.general 17 (capitalStyle 17)

end Double
end MessageLang
