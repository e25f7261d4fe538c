/-
CljFormat.LineDiff — two texts compared line by line.

The lines at the same place are compared, a missing line counting as empty, and those that differ
are shown: the first text's with `-`, the second's with `+`. Empty lines are not shown.
-/
import CljFormat.Text.Lines

namespace CljFormat

/-- One shown line: its mark, its number and its text. -/
def diffLine (mark : String) (number : Nat) (line : String) : String :=
  if line.isEmpty then "" else mark ++ Text.alignRight 4 number ++ " | " ++ line ++ "\n"

/-- The differing lines of two lists of lines, the first of which have the number `number`. -/
def diffLines (number : Nat) : (before after : List String) → String
  | [], [] => ""
  | a :: before, [] => diffLine "-" number a ++ diffLines (number + 1) before []
  | [], b :: after => diffLine "+" number b ++ diffLines (number + 1) [] after
  | a :: before, b :: after =>
    (if a = b then "" else diffLine "-" number a ++ diffLine "+" number b) ++
      diffLines (number + 1) before after

/-- The difference of two texts, or nothing if they are equal. -/
def lineDiff (before after : String) : Option String :=
  if before = after then none else some (diffLines 1 (Text.lines before) (Text.lines after))

end CljFormat
