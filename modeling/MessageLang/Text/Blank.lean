/-!
# White space

`isSpace` holds of the Unicode white space characters and of the information separators
`U+001C` to `U+001F`. `trimEnd` removes them from the end of a text.
-/
namespace MessageLang.Text

/-- Whether a character is white space. -/
def isSpace (c : Char) : Bool :=
  let n := c.toNat
  (0x09 ≤ n && n ≤ 0x0d) || (0x1c ≤ n && n ≤ 0x20) || n == 0x85 || n == 0xa0 || n == 0x1680 ||
    (0x2000 ≤ n && n ≤ 0x200a) || n == 0x2028 || n == 0x2029 || n == 0x202f || n == 0x205f ||
    n == 0x3000

/-- A text without the white space at its end. -/
def trimEnd (text : List Char) : List Char := (text.reverse.dropWhile isSpace).reverse

end MessageLang.Text
