/-
CljFormat.Layout.Piece — a planned source as a sequence of pieces.

`Form.pieces` sets a form at a column and says at which column it ends. What it gives is not yet
text: indentation is counted and not spelled, so the layout does not depend on the character that
indents, and every piece of text carries the column that the layout takes it to start at.

Columns count characters. A string or regular expression with line breaks counts all its
characters, so what follows it on its last line is taken to stand further right than it does.
-/
import CljFormat.Layout.Cursor
import CljFormat.Layout.Docstring

namespace CljFormat

namespace Layout

/-- A piece of laid out source. -/
inductive Piece
  /-- A text that the layout starts at the column `col`. -/
  | text (col : Nat) (s : String)
  /-- A docstring whose quote is at the column `col`. -/
  | docstring (col : Nat) (d : Docstring)
  /-- The space between two items. -/
  | space
  | newline
  /-- Indentation by `width` columns. -/
  | indent (width : Nat)
deriving DecidableEq, Repr

/-- The characters of a piece, indented with `c`. -/
def Piece.chars (c : Char) : Piece → List Char
  | text _ s => s.toList
  | docstring _ d => '"' :: d.chars c ++ ['"']
  | space => [' ']
  | newline => ['\n']
  | indent width => List.replicate width c

/-- The text of pieces, indented with `c`. -/
def toText (c : Char) (pieces : List Piece) : String :=
  String.ofList (pieces.flatMap (Piece.chars c))

/-- What is set in front of an item or a closing delimiter. -/
def Cursor.gapPieces (c : Cursor) : List Piece :=
  match c.gap with
  | .none => []
  | .space => [.space]
  | .indent => [.indent c.base]

/-- The line break that a comment before the cursor needs. -/
def Cursor.commentPieces (c : Cursor) : List Piece :=
  if c.afterComment then [.newline] else []

end Layout

/-- The text of an atom. A line break has none: it is set between items. -/
def Atom.text : Atom → String
  | bool true => "true"
  | bool false => "false"
  | character _ text => text
  | comment text => text
  | keyword text => text
  | newline => ""
  | nil => "nil"
  | number text => text
  | regex text => "#\"" ++ text ++ "\""
  | string text => "\"" ++ text ++ "\""
  | symbol text => text
  | tag text => "#" ++ text
  | varQuote text => "#'" ++ text

/-- The text of a sigil. -/
def Sigil.text : Sigil → String
  | deref => "@"
  | metadata => "^"
  | quote => "'"
  | readerDiscard => "#_"
  | readerEval => "#="
  | syntaxQuote => "\x60"
  | unquote => "~"
  | unquoteSplice => "~@"

/-- The text that opens a sequence. -/
def Bracket.openText : Bracket → String
  | fnLiteral => "#("
  | list => "("
  | map none => "\x7b"
  | map (some ns) => "#" ++ ns ++ "\x7b"
  | readerCond => "#?("
  | readerCondSplice => "#?@("
  | set => "#\x7b"
  | vector => "["

/-- The text that closes a sequence. -/
def Bracket.closeText : Bracket → String
  | fnLiteral | list | readerCond | readerCondSplice => ")"
  | map _ | set => "\x7d"
  | vector => "]"

namespace Layout

/-- Sets an atom at column `w`: its pieces, and the column behind it. -/
def atomPieces (hint : Hint) (x : Atom) (w : Nat) : List Piece × Nat :=
  match hint.docstring, x with
  | true, .string text =>
    let d := Docstring.align w text
    ([.docstring w d], w + d.length + 2)
  | _, x => ([.text w x.text], w + x.text.length)

mutual

/-- Sets a form at column `w`: its pieces, and the column behind it. -/
def formPieces : Form Hint → (w : Nat) → List Piece × Nat
  | .atom hint x, w => atomPieces hint x w
  | .prefixed _ s body, w =>
    let (inner, stop) := formPieces body (w + s.text.length)
    (.text w s.text :: inner, stop)
  | .seq hint b items, w =>
    let (inner, c) := itemPieces hint.layout (.start (w + b.openText.length)) items
    let last := c.close hint.layout
    (.text w b.openText :: inner ++ c.commentPieces ++
        (if last.gap = .indent then [.indent last.base] else []) ++ [.text last.col b.closeText],
      last.col + b.closeText.length)

/-- Sets the items of a sequence from the cursor on: their pieces, and the cursor behind them. -/
def itemPieces (layout : Layout) : Cursor → List (Form Hint) → List Piece × Cursor
  | c, [] => ([], c)
  | c, f :: rest =>
    if f.isNewline then
      let (later, stop) := itemPieces layout (c.passNewline layout) rest
      (.newline :: later, stop)
    else
      let place := c.enter layout f
      let (inner, w) := formPieces f place.itemCol
      let (later, stop) := itemPieces layout (place.leave f w) rest
      (c.commentPieces ++ place.gapPieces ++ inner ++ later, stop)

end

/-- The pieces of a planned source. -/
def sourcePieces (roots : List (Form Hint)) : List Piece :=
  (itemPieces .normal (.start 0) roots).1

end Layout

end CljFormat
