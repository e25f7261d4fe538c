/-
CljFormat.Layout.Docstring — docstrings under their opening quote.

The lines of a docstring after its first one are set under the opening quote. A line that was
indented deeper than that keeps its depth; white space at the end of a line, and all of a blank
line, is dropped.
-/
import CljFormat.Text.Blank
import CljFormat.Text.Lines

namespace CljFormat.Layout

/-- A line of a docstring: `indent` columns of indentation in front of `text`. -/
structure DocLine where
  indent : Nat
  text : List Char
deriving DecidableEq, Repr

/-- A docstring whose lines have found their places. -/
structure Docstring where
  first : List Char
  rest : List DocLine
deriving DecidableEq, Repr

/-- A line without the white space at its start and end. -/
def trim (line : List Char) : List Char :=
  ((line.dropWhile Text.isWhiteSpace).reverse.dropWhile Text.isWhiteSpace).reverse

/-- Sets a line of a docstring whose quote is at column `w`. Spaces past that column stay part of
the line. -/
def DocLine.align (w : Nat) (line : List Char) : DocLine :=
  let trimmed := trim line
  if trimmed.isEmpty then ⟨0, []⟩
  else
    let depth := (line.takeWhile (· == ' ')).length
    ⟨w, List.replicate (depth - w) ' ' ++ trimmed⟩

namespace Docstring

/-- Sets a docstring whose quote is at column `w`. -/
def align (w : Nat) (s : String) : Docstring :=
  let (first, rest) := Text.pieces '\n' s.toList
  ⟨first, rest.map (DocLine.align w)⟩

/-- The characters of a docstring that is indented with `c`. -/
def chars (c : Char) (d : Docstring) : List Char :=
  d.first ++ d.rest.flatMap fun line => '\n' :: (List.replicate line.indent c ++ line.text)

/-- How many characters a docstring has, whatever it is indented with. -/
def length (d : Docstring) : Nat :=
  (d.chars ' ').length

end Docstring

end CljFormat.Layout
