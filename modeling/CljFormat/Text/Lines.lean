/-
CljFormat.Text.Lines — texts as lines.

`pieces` cuts a text at every separator, so that putting separators between the pieces gives the
text back. `lines` gives the lines of a file: a carriage return in front of a line feed ends the
line with it, and nothing behind the last line feed is not a line.
-/

namespace CljFormat.Text

/-- The piece of a text before its first separator, and the pieces behind each separator. -/
def pieces (separator : Char) : List Char → List Char × List (List Char)
  | [] => ([], [])
  | c :: cs =>
    let (first, rest) := pieces separator cs
    if c = separator then ([], first :: rest) else (c :: first, rest)

/-- A line without a carriage return at its end. -/
def dropReturn (line : List Char) : List Char :=
  if line.getLast? = some '\r' then line.dropLast else line

/-- The lines of a file. -/
def lines (s : String) : List String :=
  let (first, rest) := pieces '\n' s.toList
  let all := first :: rest
  let ended := all.dropLast.map dropReturn
  let last := (all.getLast?.getD [])
  (if last.isEmpty then ended else ended ++ [last]).map String.ofList

/-- A number in decimal, right-aligned in `width` columns. -/
def alignRight (width n : Nat) : String :=
  let digits := (toString n).toList
  String.ofList (List.replicate (width - digits.length) ' ' ++ digits)

end CljFormat.Text
