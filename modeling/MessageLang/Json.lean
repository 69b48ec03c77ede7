import MessageLang.Decimal.Reading
import MessageLang.Table
import MessageLang.Text.Escape
import MessageLang.Value.Basic
/-!
# Reading JSON

`Json.read` is the value that a JSON text stands for. A number is an integer unless it has a
fraction or an exponent; of the entries of an object with one key the last counts. The words `NaN`,
`Infinity` and `-Infinity` are read too. An integer with too many digits is refused.
-/
namespace MessageLang.Json

def isBlank (c : Char) : Bool := c == ' ' || c == '\t' || c == '\n' || c == '\r'

def skipBlanks (cs : List Char) : List Char := cs.dropWhile isBlank

/-- The number of four hexadecimal digits. -/
def unit? (a b c d : Char) : Option Nat := do
  let w ← Text.Escape.hexValue? a
  let x ← Text.Escape.hexValue? b
  let y ← Text.Escape.hexValue? c
  let z ← Text.Escape.hexValue? d
  return ((16 * w + x) * 16 + y) * 16 + z

/-- The character of a code point; half of a pair that stands alone has none of its own. -/
def charOf (code : Nat) : Char := if code.isValidChar then Char.ofNat code else '\ufffd'

/-- The escapes of one letter. -/
def letter? : Char → Option Char
  | '"' => some '"'
  | '\\' => some '\\'
  | '/' => some '/'
  | 'b' => some '\x08'
  | 'f' => some '\x0c'
  | 'n' => some '\n'
  | 'r' => some '\r'
  | 't' => some '\t'
  | _ => none

/-- The code point of two halves of a pair, if they are such. -/
def joinPair? (high low : Nat) : Option Nat :=
  if 0xd800 ≤ high && high < 0xdc00 && 0xdc00 ≤ low && low < 0xe000 then
    some (0x10000 + (high - 0xd800) * 0x400 + (low - 0xdc00))
  else none

/-- A character, unless the rest of the text is missing. -/
def consChar (c : Char) (rest : Option (List Char × List Char)) :
    Option (List Char × List Char) :=
  rest.map fun (text, after) => (c :: text, after)

/-- The characters of a string behind its opening quote, and what follows the closing one. -/
def stringRest : List Char → Option (List Char × List Char)
  | [] => none
  | '"' :: rest => some ([], rest)
  | '\\' :: 'u' :: a :: b :: c :: d :: '\\' :: 'u' :: e :: f :: g :: h :: rest =>
    match unit? a b c d, unit? e f g h with
    | some high, some low => match joinPair? high low with
      | some code => consChar (charOf code) (stringRest rest)
      | none => consChar (charOf high) (stringRest ('\\' :: 'u' :: e :: f :: g :: h :: rest))
    | some code, none => consChar (charOf code) (stringRest ('\\' :: 'u' :: e :: f :: g :: h :: rest))
    | none, _ => none
  | '\\' :: 'u' :: a :: b :: c :: d :: rest =>
    match unit? a b c d with
    | some code => consChar (charOf code) (stringRest rest)
    | none => none
  | '\\' :: c :: rest =>
    match letter? c with
    | some d => consChar d (stringRest rest)
    | none => none
  | c :: rest => if c.toNat < 0x20 then none else consChar c (stringRest rest)

/-- The digits at the head of a text, and what follows them. -/
def splitDigits (cs : List Char) : List Char × List Char :=
  (cs.takeWhile Char.isDigit, cs.dropWhile Char.isDigit)

/-- A point and digits, if these follow. -/
def splitFraction (cs : List Char) : List Char × List Char :=
  match cs with
  | '.' :: rest => match splitDigits rest with
    | ([], _) => ([], cs)
    | (ds, after) => ('.' :: ds, after)
  | _ => ([], cs)

/-- An exponent mark with digits, if these follow. -/
def splitExponent (cs : List Char) : List Char × List Char :=
  let digits (mark : List Char) (rest : List Char) : List Char × List Char :=
    match splitDigits rest with
    | ([], _) => ([], cs)
    | (ds, after) => (mark ++ ds, after)
  match cs with
  | c :: rest =>
    if c == 'e' || c == 'E' then
      match rest with
      | '+' :: more => digits [c, '+'] more
      | '-' :: more => digits [c, '-'] more
      | _ => digits [c] rest
    else ([], cs)
  | [] => ([], [])

/-- The digits of a whole number without needless zeros. -/
def splitWhole (cs : List Char) : List Char × List Char :=
  match cs with
  | '0' :: rest => (['0'], rest)
  | _ => splitDigits cs

/-- A number behind its sign. -/
def number? (negative : Bool) (cs : List Char) : Option (Value × List Char) :=
  match splitWhole cs with
  | ([], _) => none
  | (whole, rest) =>
    let (fraction, rest) := splitFraction rest
    let (exponent, rest) := splitExponent rest
    if fraction.isEmpty && exponent.isEmpty then
      let n : Int := natOfDigits whole
      if maxDecimalDigits < whole.length then none
      else some (.int (if negative then -n else n), rest)
    else some (.float (Double.ofChars negative (whole ++ fraction ++ exponent)), rest)

mutual
/-- The value at the head of a text, and what follows it. -/
def value? : (fuel : Nat) → List Char → Option (Value × List Char)
  | 0, _ => none
  | fuel + 1, cs =>
    match cs with
    | '"' :: rest => do
      let (text, rest) ← stringRest rest
      return (.str (String.ofList text), rest)
    | '[' :: rest =>
      match skipBlanks rest with
      | ']' :: rest => some (.list [], rest)
      | rest => do
        let (items, rest) ← items? fuel rest
        return (.list items, rest)
    | '\x7b' :: rest =>
      match skipBlanks rest with
      | '\x7d' :: rest => some (.record [], rest)
      | rest => do
        let (entries, rest) ← entries? fuel rest
        return (.record (Table.ofEntries entries), rest)
    | 'n' :: 'u' :: 'l' :: 'l' :: rest => some (.none, rest)
    | 't' :: 'r' :: 'u' :: 'e' :: rest => some (.bool true, rest)
    | 'f' :: 'a' :: 'l' :: 's' :: 'e' :: rest => some (.bool false, rest)
    | 'N' :: 'a' :: 'N' :: rest => some (.float .nan, rest)
    | 'I' :: 'n' :: 'f' :: 'i' :: 'n' :: 'i' :: 't' :: 'y' :: rest =>
      some (.float (.infinite false), rest)
    | '-' :: 'I' :: 'n' :: 'f' :: 'i' :: 'n' :: 'i' :: 't' :: 'y' :: rest =>
      some (.float (.infinite true), rest)
    | '-' :: rest => number? true rest
    | _ => number? false cs

/-- The items of an array that has some, from the first on. -/
def items? : (fuel : Nat) → List Char → Option (List Value × List Char)
  | 0, _ => none
  | fuel + 1, cs => do
    let (v, rest) ← value? fuel cs
    match skipBlanks rest with
    | ',' :: rest =>
      let (items, rest) ← items? fuel (skipBlanks rest)
      return (v :: items, rest)
    | ']' :: rest => return ([v], rest)
    | _ => none

/-- The entries of an object that has some, from the first on. -/
def entries? : (fuel : Nat) → List Char → Option (List (String × Value) × List Char)
  | 0, _ => none
  | fuel + 1, cs =>
    match cs with
    | '"' :: rest => do
      let (key, rest) ← stringRest rest
      match skipBlanks rest with
      | ':' :: rest =>
        let (v, rest) ← value? fuel (skipBlanks rest)
        match skipBlanks rest with
        | ',' :: rest =>
          let (entries, rest) ← entries? fuel (skipBlanks rest)
          return ((String.ofList key, v) :: entries, rest)
        | '\x7d' :: rest => return ([(String.ofList key, v)], rest)
        | _ => none
      | _ => none
    | _ => none
end

/-- The value that a text stands for, if it is JSON. -/
def read (text : String) : Option Value :=
  let cs := skipBlanks text.toList
  match value? (cs.length + 1) cs with
  | some (v, rest) => if (skipBlanks rest).isEmpty then some v else none
  | none => none

end MessageLang.Json
