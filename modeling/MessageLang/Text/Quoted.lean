import MessageLang.Text.Printable
/-!
# Quoted text

How a text is shown in a message: between single quotes, or double quotes if it holds a single
quote and no double one. The quote, the backslash and what is not printable are escaped.
-/
namespace MessageLang.Text

/-- The hexadecimal digits of a number, filled with zeros up to a width. -/
def hex (width n : Nat) : String :=
  let ds := Nat.toDigits 16 n
  String.ofList (List.replicate (width - ds.length) '0' ++ ds)

/-- One character of a text between the given quotes. -/
def quotedChar (quote c : Char) : String :=
  if c == quote || c == '\\' then String.ofList ['\\', c]
  else if c == '\n' then "\\n"
  else if c == '\r' then "\\r"
  else if c == '\t' then "\\t"
  else if isPrintable c then String.singleton c
  else if c.toNat ≤ 0xff then "\\x" ++ hex 2 c.toNat
  else if c.toNat ≤ 0xffff then "\\u" ++ hex 4 c.toNat
  else "\\U" ++ hex 8 c.toNat

/-- The quote that needs the fewest escapes; the single one if both need some. -/
def quoteFor (text : String) : Char :=
  if text.toList.contains '\'' && !text.toList.contains '"' then '"' else '\''

/-- A text as it is shown in a message. -/
def quoted (text : String) : String :=
  let quote := quoteFor text
  String.singleton quote ++ String.join (text.toList.map (quotedChar quote)) ++
    String.singleton quote

end MessageLang.Text
