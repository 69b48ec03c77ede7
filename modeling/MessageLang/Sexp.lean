import MessageLang.Decimal.Digits
/-!
# S-expressions and their machine form

An S-expression is an atom or a list. Its machine form has one space between the items of a list,
and quotes around an atom only where it could not be read back without them.
-/
namespace MessageLang

inductive Sexp where
  | atom (text : String)
  | list (items : List Sexp)
deriving Repr, Inhabited

namespace Sexp

/-- Characters that end a bare atom or start something else. -/
def isReserved (c : Char) : Bool :=
  c == '(' || c == ')' || c == '"' || c == ';' || c == '\\' || c.toNat ≤ 32 || c.toNat ≥ 127

/-- Whether a block comment could start or end in the text. -/
def hasCommentMark : List Char → Bool
  | '#' :: '|' :: _ => true
  | '|' :: '#' :: _ => true
  | _ :: rest => hasCommentMark rest
  | [] => false

/-- Whether a text needs quotes to be read back as one atom. -/
def needsQuotes (text : String) : Bool :=
  text.isEmpty || hasCommentMark text.toList || text.toList.any isReserved

/-- A character between quotes: printable ASCII as it is, anything else as the decimal escapes of
its UTF-8 bytes. -/
def escapeChar (c : Char) : List Char :=
  match c with
  | '"' => ['\\', '"']
  | '\\' => ['\\', '\\']
  | '\n' => ['\\', 'n']
  | '\t' => ['\\', 't']
  | '\r' => ['\\', 'r']
  | '\x08' => ['\\', 'b']
  | _ =>
    if 32 ≤ c.toNat && c.toNat < 127 then [c]
    else (String.utf8EncodeChar c).flatMap fun b => '\\' :: (paddedNat 3 b.toNat).toList

/-- The text between the quotes of an atom. -/
def escape (text : String) : String := String.ofList (text.toList.flatMap escapeChar)

/-- The machine form of an atom. -/
def atomText (text : String) : String :=
  if needsQuotes text then "\"" ++ escape text ++ "\"" else text

mutual
/-- The machine form. -/
def toText : Sexp → String
  | .atom text => atomText text
  | .list items => "(" ++ itemsText items ++ ")"

/-- The machine forms of the items of a list, with single spaces. -/
def itemsText : List Sexp → String
  | [] => ""
  | [s] => s.toText
  | s :: rest => s.toText ++ " " ++ itemsText rest
end

end Sexp
end MessageLang
