/-
CljFormat.Position — places in a source text.

A position counts bytes from the start, lines from one, and the bytes since the last line break
from one. The source's name is not part of it: it is supplied where a position is shown.
-/

namespace CljFormat

/-- A place in a source text. -/
structure Position where
  /-- Bytes before this place. -/
  offset : Nat
  /-- One more than the line breaks before this place. -/
  line : Nat
  /-- One more than the bytes between the last line break and this place. -/
  col : Nat
deriving DecidableEq, Repr

namespace Position

/-- The place before the first character. -/
def start : Position := ⟨0, 1, 1⟩

/-- The place after `c`, which stands at `p`. -/
def advance (p : Position) (c : Char) : Position :=
  if c = '\n' then ⟨p.offset + c.utf8Size, p.line + 1, 1⟩
  else ⟨p.offset + c.utf8Size, p.line, p.col + c.utf8Size⟩

/-- A position in the source called `name`, as messages show it. -/
def describe (name : String) (p : Position) : String :=
  s!"{name}:{p.line}:{p.col}"

end Position

end CljFormat
