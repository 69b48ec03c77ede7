import MessageLang.Decimal.Digits
/-!
# Places in a source text

A `Position` is a point of a text that is being read. A `Location` is a region of a named file, as
trees and error messages carry it; one that is only given by line and column has zeros elsewhere.
Lines and columns count from 1, offsets from 0; only a line feed starts a new line.
-/
namespace MessageLang

structure Position where
  offset : Nat
  line : Nat
  column : Nat
deriving DecidableEq, Repr, Inhabited

namespace Position

/-- The start of a text. -/
def start : Position := ⟨0, 1, 1⟩

/-- The position behind a character. -/
def next (p : Position) (c : Char) : Position :=
  if c == '\n' then ⟨p.offset + 1, p.line + 1, 1⟩ else ⟨p.offset + 1, p.line, p.column + 1⟩

/-- The position behind a text. -/
def advance (p : Position) (text : List Char) : Position := text.foldl next p

end Position

structure Location where
  file : String
  line : Int
  column : Int
  start : Int := 0
  stop : Int := 0
  endLine : Int := 0
  endColumn : Int := 0
deriving DecidableEq, Repr, Inhabited

namespace Location

/-- The region of a file from one position to another. -/
def between (file : String) (first last : Position) : Location :=
  ⟨file, first.line, first.column, first.offset, last.offset, last.line, last.column⟩

/-- A place given by line and column only. -/
def point (file : String) (line column : Int) : Location := ⟨file, line, column, 0, 0, 0, 0⟩

/-- The column counted from 0. -/
def column0 (l : Location) : Int := max (l.column - 1) 0

/-- `file:line:column`, as error messages name a place. -/
def toText (l : Location) : String :=
  l.file ++ ":" ++ decimalInt l.line ++ ":" ++ decimalInt l.column

/-- `file:line:column` with the column counted from 0, as programs see their own places. -/
def positionText (l : Location) : String :=
  l.file ++ ":" ++ decimalInt l.line ++ ":" ++ decimalInt l.column0

end Location
end MessageLang
