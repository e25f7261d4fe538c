/-
CljFormat.Format — formatting a source.

A source is read into a tree, the line breaks of the tree are rearranged if the settings ask for it,
every form is planned, and the plan is set and spelled out. Line breaks are where the tree has them;
blanks are not taken from the source but follow from the layout.

## What cannot be laid out

A line break directly under a sigil has no place among items. No source holds one, since reading
passes over line breaks there, but a tree that is built by hand may.
-/
import CljFormat.Layout.Piece
import CljFormat.LineDiff
import CljFormat.Tree.Rearrange

namespace CljFormat

/-- Why forms cannot be formatted. -/
inductive FormatError
  | malformed (e : SyntaxError)
  /-- A line break at `pos` stands under a sigil. -/
  | unhandledNewline (pos : Position)
  /-- The line breaks cannot be rearranged, since an edit of the tree is refused. -/
  | refusedEdit (e : EditError)
  /-- The text does not fit where it is written to. -/
  | sinkFull
deriving DecidableEq, Repr

/-- The wording of an error about the source called `name`. -/
def FormatError.message (name : String) : FormatError → String
  | malformed e => e.message name
  | unhandledNewline pos =>
    s!"{pos.describe name}: unhandled node type {Atom.newline.kindName}"
  | refusedEdit e => "transform failed: " ++ e.message
  | sinkFull => "error writing output: sink is full"

mutual

/-- The first line break under a sigil in a form. -/
def Form.strayNewline? : Form Label → Option Position
  | .atom _ _ => none
  | .prefixed _ _ body => if body.isNewline then some body.note.pos else body.strayNewline?
  | .seq _ _ items => Form.strayNewlineAmong? items

/-- The first line break under a sigil in neighbouring forms. -/
def Form.strayNewlineAmong? : List (Form Label) → Option Position
  | [] => none
  | f :: rest => f.strayNewline? <|> Form.strayNewlineAmong? rest

end

/-- The pieces of a source with these forms. -/
def layOut (table : IndentTable) (roots : List (Form Label)) : List Layout.Piece :=
  Layout.sourcePieces (Layout.planAll (.ofRoots table roots) {} roots).1

/-- The text of a source with these forms. -/
def formatForms (config : Config) (roots : List (Form Label)) : Except FormatError String :=
  match Form.strayNewlineAmong? roots with
  | some pos => .error (.unhandledNewline pos)
  | none => .ok (Layout.toText config.indentChar (layOut config.table roots))

/-- The text of the forms of a tree. -/
def formatTree (config : Config) (t : Tree) : Except FormatError String :=
  formatForms config t.forms

/-- The tree of `source`, if it can be read. -/
def readTree (config : Config) (source : String) : Except FormatError Tree :=
  match Reader.read config.options source with
  | .ok d => .ok (.ofDocument d)
  | .error e => .error (.malformed e)

/-- A tree with its line breaks as the settings want them. -/
def rearranged (config : Config) (t : Tree) : Except FormatError Tree :=
  (t.rearrange config.transforms).mapError .refusedEdit

/-- The text of `source` under the settings `config`. -/
def format (config : Config) (source : String) : Except FormatError String := do
  formatTree config (← rearranged config (← readTree config source))

example : format {} "(foo bar\nbaz)" = .ok "(foo bar\n     baz)" := rfl

example : format {} "(let [a 1\nb\n2]\na)" = .ok "(let [a 1\n      b\n        2]\n  a)" := rfl

example : format {} "(-> m\n(assoc :a\n1))" = .ok "(-> m\n    (assoc :a\n        1))" := rfl

/-- The text of `source` with its line breaks as they are, if it has at most `limit` bytes. -/
def printWithin (limit : Nat) (config : Config) (source : String) : Except FormatError String := do
  let text ← formatTree config (← readTree config source)
  if limit < text.utf8ByteSize then .error .sinkFull else return text

/-- Whether `source` is as the default settings would have it. -/
def isFormatted (source : String) : Except FormatError Bool := do
  return source == (← format {} source)

/-- What the default settings would change in `source`, if anything. -/
def formatDiff (source : String) : Except FormatError (Option String) := do
  return lineDiff source (← format {} source)

end CljFormat
