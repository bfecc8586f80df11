/-!
# Blank characters

The characters that count as white space everywhere in the library, and stripping them from
the ends of a text. The set is that of Unicode's white space and bidirectional separator
properties together: it holds the information separators U+001C to U+001F, and neither the zero
width space nor the byte order mark.
-/

namespace ImportAtlas.Text

/-- Whether a character is white space. -/
def isBlank (c : Char) : Bool :=
  let n := c.toNat
  (9 ≤ n && n ≤ 13) || (28 ≤ n && n ≤ 32) || n == 0x85 || n == 0xA0 || n == 0x1680 ||
    (0x2000 ≤ n && n ≤ 0x200A) || n == 0x2028 || n == 0x2029 || n == 0x202F || n == 0x205F ||
    n == 0x3000

/-- The text from its first character that is not blank. -/
def stripLeft (s : List Char) : List Char := s.dropWhile isBlank

/-- The text up to its last character that is not blank. -/
def stripRight (s : List Char) : List Char := (s.reverse.dropWhile isBlank).reverse

/-- The text without the blanks at both ends. -/
def strip (s : List Char) : List Char := stripRight (stripLeft s)

end ImportAtlas.Text
