import MessageLang.Source.Location
/-!
# Terminals

The classes of lexemes. `Terminal.width t cs` is the length of the lexeme of class `t` at the head
of the text `cs`, and 0 if there is none; no class has an empty lexeme. `Terminal.first?` picks the
first class, in a fixed order, that has a lexeme at the head of a text.
-/
namespace MessageLang

inductive Terminal where
  | float
  | optionalLabel
  | label
  | integer
  | longName
  | extensionName
  | optionalName
  | labelledName
  | name
  | string
  | comment
  | blank
  | char
  | openExtension
  | sign
  | colon
  | comma
  | caret
  | equals
  | openParen
  | openBracket
  | star
  | closeParen
  | closeBracket
  | semicolon
deriving DecidableEq, Repr

namespace Terminal

/-- All terminals, in the order in which they are tried. -/
def all : List Terminal :=
  [float, optionalLabel, label, integer, longName, extensionName, optionalName, labelledName, name,
    string, comment, blank, char, openExtension, sign, colon, comma, caret, equals, openParen,
    openBracket, star, closeParen, closeBracket, semicolon]

/-- Comments and blanks separate tokens and are none themselves. -/
def isLayout : Terminal → Bool
  | comment | blank => true
  | _ => false

/-! ## Character classes, all of them ASCII -/

def isLower (c : Char) : Bool := c.isLower || c == '_'

def isLetter (c : Char) : Bool := c.isAlpha || c == '_'

def isWord (c : Char) : Bool := c.isAlphanum || c == '_'

def isNameChar (c : Char) : Bool := isWord c || c == '\''

def isDecimal (c : Char) : Bool := c.isDigit || c == '_'

def isHexDigit (c : Char) : Bool := c.isDigit || ('a' ≤ c && c ≤ 'f') || ('A' ≤ c && c ≤ 'F')

def isOctalDigit (c : Char) : Bool := '0' ≤ c && c ≤ '7'

def isBinaryDigit (c : Char) : Bool := c == '0' || c == '1'

def isBlank (c : Char) : Bool := c == ' ' || c == '\t' || c == '\x0c' || c == '\r' || c == '\n'

/-- The characters that a backslash takes as a whole escape in a character literal. -/
def isEscapable (c : Char) : Bool := ['"', '\'', '\\', 'n', 't', 'b', 'r', ' '].contains c

/-! ## Widths -/

/-- `k` characters and then a lexeme of width `n`, which must not be missing. -/
def behind (k n : Nat) : Nat := if n == 0 then 0 else k + n

/-- A character of one class and then as many as there are of another. -/
def run (first more : Char → Bool) : List Char → Nat
  | c :: rest => if first c then (rest.takeWhile more).length + 1 else 0
  | [] => 0

/-- A single given character. -/
def only (c : Char) : List Char → Nat
  | d :: _ => if d == c then 1 else 0
  | [] => 0

/-- A name behind a mark, as in `~x`. -/
def marked (mark : Char) : List Char → Nat
  | c :: rest => if c == mark then behind 1 (run isLower isNameChar rest) else 0
  | [] => 0

/-- A marked name and a colon, as in `~x:`. -/
def markedColon (mark : Char) (cs : List Char) : Nat :=
  let n := marked mark cs
  if n == 0 then 0 else behind n (only ':' (cs.drop n))

/-- A name behind any number of capitalised names with points, as in `A.B.x`. -/
def longNameWidth (cs : List Char) : Nat :=
  let n := run isLetter isNameChar cs
  match h : cs.drop n with
  | '.' :: rest =>
    let m := longNameWidth rest
    if cs.head?.any Char.isUpper && m != 0 then n + 1 + m else n
  | _ => n
termination_by cs.length
decreasing_by all_goals
  have := congrArg List.length h
  simp only [List.length_drop, List.length_cons] at this
  omega

/-- Names of words joined by points, as in `a.b`. -/
def dottedWidth (cs : List Char) : Nat :=
  let n := run isLower isWord cs
  if n == 0 then 0 else
  match h : cs.drop n with
  | '.' :: rest =>
    let m := dottedWidth rest
    if m != 0 then n + 1 + m else n
  | _ => n
termination_by cs.length
decreasing_by all_goals
  have := congrArg List.length h
  simp only [List.length_drop, List.length_cons] at this
  omega

/-- An exponent: a mark, a sign perhaps, and digits. -/
def exponentWidth : List Char → Nat
  | c :: rest =>
    if c == 'e' || c == 'E' then
      match rest with
      | '+' :: ds | '-' :: ds => behind 2 (run Char.isDigit isDecimal ds)
      | ds => behind 1 (run Char.isDigit isDecimal ds)
    else 0
  | [] => 0

/-- Digits with a point, an exponent or both. -/
def floatWidth (cs : List Char) : Nat :=
  let n := run Char.isDigit isDecimal cs
  if n == 0 then 0 else
  match cs.drop n with
  | '.' :: rest =>
    let m := (rest.takeWhile isDecimal).length
    n + 1 + m + exponentWidth (rest.drop m)
  | rest => behind n (exponentWidth rest)

/-- The digits that a radix mark asks for. -/
def radixDigit? : Char → Option (Char → Bool)
  | 'x' | 'X' => some isHexDigit
  | 'o' | 'O' => some isOctalDigit
  | 'b' | 'B' => some isBinaryDigit
  | _ => none

/-- The digits behind a radix mark. -/
def radixWidth (mark : Char) (digits : List Char) : Nat :=
  match radixDigit? mark with
  | some digit => run digit (fun c => digit c || c == '_') digits
  | none => 0

/-- The digits of an integer with their radix mark. -/
def magnitudeWidth (cs : List Char) : Nat :=
  match cs with
  | '0' :: mark :: digits =>
    if radixWidth mark digits != 0 then 2 + radixWidth mark digits else run Char.isDigit isDecimal cs
  | _ => run Char.isDigit isDecimal cs

/-- An integer with its kind suffix. -/
def integerWidth (cs : List Char) : Nat :=
  let n := magnitudeWidth cs
  if n == 0 then 0 else
  match cs.drop n with
  | c :: _ => if c == 'l' || c == 'L' || c == 'n' then n + 1 else n
  | [] => n

/-- The rest of a string behind its opening quote. -/
def stringRest : List Char → Nat
  | [] => 0
  | '"' :: _ => 1
  | ['\\'] => 0
  | '\\' :: _ :: rest => behind 2 (stringRest rest)
  | _ :: rest => behind 1 (stringRest rest)

def stringWidth : List Char → Nat
  | '"' :: rest => behind 1 (stringRest rest)
  | _ => 0

/-- The rest of a comment behind its opening: up to the first `*)`. -/
def commentRest : List Char → Nat
  | '*' :: ')' :: _ => 2
  | _ :: rest => behind 1 (commentRest rest)
  | [] => 0

def commentWidth : List Char → Nat
  | '(' :: '*' :: rest => behind 2 (commentRest rest)
  | _ => 0

/-- The escape of a character literal, behind its backslash. -/
def charEscapeWidth : List Char → Nat
  | a :: rest =>
    if isEscapable a then 1
    else match rest with
      | b :: c :: _ =>
        if (a.isDigit && b.isDigit && c.isDigit) || (a == 'x' && isHexDigit b && isHexDigit c)
        then 3 else 0
      | _ => 0
  | [] => 0

/-- The rest of a character literal behind its opening quote. -/
def charRest : List Char → Nat
  | '\\' :: rest =>
    let n := charEscapeWidth rest
    if n == 0 then 0 else behind (1 + n) (only '\'' (rest.drop n))
  | '\'' :: _ => 0
  | '\n' :: _ => 0
  | _ :: rest => behind 1 (only '\'' rest)
  | [] => 0

def charWidth : List Char → Nat
  | '\'' :: rest => behind 1 (charRest rest)
  | _ => 0

/-- The length of the lexeme of a class at the head of a text, 0 if there is none. -/
def width : Terminal → List Char → Nat
  | float, cs => floatWidth cs
  | optionalLabel, cs => markedColon '?' cs
  | label, cs => markedColon '~' cs
  | integer, cs => integerWidth cs
  | longName, cs => longNameWidth cs
  | extensionName, cs => dottedWidth cs
  | optionalName, cs => marked '?' cs
  | labelledName, cs => marked '~' cs
  | name, cs => run isLower isNameChar cs
  | string, cs => stringWidth cs
  | comment, cs => commentWidth cs
  | blank, cs => (cs.takeWhile isBlank).length
  | char, cs => charWidth cs
  | openExtension, '[' :: '%' :: _ => 2
  | openExtension, _ => 0
  | sign, c :: _ => if c == '+' || c == '-' then 1 else 0
  | sign, [] => 0
  | colon, cs => only ':' cs
  | comma, cs => only ',' cs
  | caret, cs => only '^' cs
  | equals, cs => only '=' cs
  | openParen, cs => only '(' cs
  | openBracket, cs => only '[' cs
  | star, cs => only '*' cs
  | closeParen, cs => only ')' cs
  | closeBracket, cs => only ']' cs
  | semicolon, cs => only ';' cs

/-- The first terminal, of those allowed, that has a lexeme at the head of a text. -/
def first? (allowed : Terminal → Bool) (cs : List Char) : Option Terminal :=
  all.find? fun t => allowed t && t.width cs != 0

/-- A terminal that is found has a lexeme. -/
theorem width_pos_of_first? {allowed : Terminal → Bool} {cs : List Char} {t : Terminal}
    (h : first? allowed cs = some t) : 0 < t.width cs := by
  have := List.find?_some h
  simp at this
  omega

end Terminal

/-- A lexeme with its class and its place. -/
structure Token where
  terminal : Terminal
  text : List Char
  first : Position
  last : Position

end MessageLang
