/-
CljFormat.Text.Quoted — the quoted form of a text inside messages and descriptions.

A text is written between quotes, with `\t`, `\r`, `\n`, `\0` and `\\` for the characters those
escapes name, a backslash before the surrounding quote, and `\u` with the lowercase hexadecimal
code point in braces for every other character that is not printable.
-/
import CljFormat.Text.Printable

namespace CljFormat.Text

/-- The escape that names the code point of `c` in lowercase hexadecimal, without padding. -/
def codePointEscape (c : Char) : List Char :=
  ['\\', 'u', '{'] ++ Nat.toDigits 16 c.toNat ++ ['}']

/-- How `c` is written between two quotes of the kind `quote`. -/
def escapeChar (quote c : Char) : List Char :=
  if c = '\x00' then ['\\', '0']
  else if c = '\t' then ['\\', 't']
  else if c = '\r' then ['\\', 'r']
  else if c = '\n' then ['\\', 'n']
  else if c = '\\' then ['\\', '\\']
  else if c = quote then ['\\', quote]
  else if isPrintable c then [c]
  else codePointEscape c

/-- The text `s` between double quotes. -/
def quoted (s : String) : String :=
  String.ofList ('"' :: s.toList.flatMap (escapeChar '"') ++ ['"'])

/-- The character `c` between single quotes. -/
def quotedChar (c : Char) : String :=
  String.ofList ('\'' :: escapeChar '\'' c ++ ['\''])

end CljFormat.Text
