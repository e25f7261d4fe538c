/-
CljFormat.Text.Blank — the character classes of the reader.

Two notions of blank differ in the comma: `isWhiteSpace` is the Unicode property White_Space, which
trims docstring lines, and `isBlank` adds the comma, which the reader skips between tokens. A
symbol, keyword or number is a run of `isSymbolChar`: anything but a blank or a delimiter.
-/

namespace CljFormat.Text

/-- The Unicode property White_Space. -/
def isWhiteSpace (c : Char) : Bool :=
  let n := c.toNat
  (0x9 ≤ n && n ≤ 0xd) || n == 0x20 || n == 0x85 || n == 0xa0 || n == 0x1680 ||
    (0x2000 ≤ n && n ≤ 0x200a) || n == 0x2028 || n == 0x2029 || n == 0x202f || n == 0x205f ||
    n == 0x3000

/-- What the reader skips between tokens: white space and the comma. -/
def isBlank (c : Char) : Bool :=
  c == ',' || isWhiteSpace c

/-- The characters that end a symbol, keyword or number without being blank. -/
def delimiters : List Char :=
  ['"', ';', '@', '^', '~', '(', ')', '[', ']', '{', '}', '\\']

/-- Whether `c` may stand inside a symbol, keyword or number. -/
def isSymbolChar (c : Char) : Bool :=
  !isBlank c && !delimiters.contains c

end CljFormat.Text
