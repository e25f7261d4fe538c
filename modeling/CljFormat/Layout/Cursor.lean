/-
CljFormat.Layout.Cursor — the place between two items of a sequence.

A cursor walks along the items of one sequence. It knows the column at which the next line would
start (`base`), the column at which the next item starts on this line (`col`), and what has to come
before that item: nothing, a space, or indentation.

A comment ends its line. If no line break follows it, one is written all the same before the next
item, and counts as if it stood there.

## Hanging values

In `bindings` and `cond` the second of a pair hangs two columns deeper when it starts a line. The
cursor adds the two columns at the line break and takes them back once the item is set, so that any
number of blank lines between the two adds them once.
-/
import CljFormat.Layout.Plan

namespace CljFormat.Layout

/-- What comes before the next item. -/
inductive Gap
  | none | space | indent
deriving DecidableEq, Repr

/-- The place between two items of a sequence. -/
structure Cursor where
  /-- The column at which the next line starts. -/
  base : Nat
  /-- The column at which the next item starts, the gap before it apart. -/
  col : Nat
  gap : Gap := .none
  /-- Whether the last item is a comment. -/
  afterComment : Bool := false
  /-- How many items lie behind. -/
  index : Nat := 0
  /-- How many of them are code, metadata apart. -/
  counted : Nat := 0
  /-- How many of those belong to pairs. -/
  paired : Nat := 0
  /-- Whether the line is two columns deeper for the second of a pair. -/
  hanging : Bool := false
  /-- The column behind the first item. -/
  headEnd : Nat := 0
deriving DecidableEq, Repr

namespace Cursor

/-- The place before the first item of a sequence whose items start at column `w`. -/
def start (w : Nat) : Cursor :=
  { base := w, col := w }

/-- Whether the next item is the second of a pair. -/
def atSecond (layout : Layout) (c : Cursor) : Bool :=
  match layout with
  | .bindings => c.counted % 2 == 1
  | .cond _ _ => c.paired % 2 == 1
  | _ => false

/-- Whether a line break right behind the first item sets the lines after it one column deeper. -/
def stepsIn (layout : Layout) (c : Cursor) : Bool :=
  match layout with
  | .list | .listBody | .cond _ _ => c.index == 1
  | _ => false

/-- The place on the next line. -/
def breakLine (layout : Layout) (c : Cursor) : Cursor :=
  let hangs := !c.stepsIn layout && c.atSecond layout && !c.hanging
  let base := if c.stepsIn layout then c.base + 1 else if hangs then c.base + 2 else c.base
  { c with base, col := base, gap := .indent, afterComment := false, hanging := c.hanging || hangs }

/-- The place past a line break that is an item. -/
def passNewline (layout : Layout) (c : Cursor) : Cursor :=
  { c.breakLine layout with index := c.index + 1 }

/-- Counts the item `f`. -/
def count (layout : Layout) (f : Form Hint) (c : Cursor) : Cursor :=
  let counts := f.isSemantic &&
    match f.shape with
    | .prefixed .metadata _ => false
    | _ => true
  if counts then
    let counted := c.counted + 1
    match layout with
    | .cond leading arrows =>
      let passes := arrows && c.paired % 2 == 1 && f.shape.keyword? == some ":>>"
      { c with
        counted
        paired := if leading + 1 < counted && !passes then c.paired + 1 else c.paired }
    | _ => { c with counted }
  else c

/-- Where lines start once the second item is reached on the first item's line, or behind a line
break that is the first item. -/
def reachSecond (layout : Layout) (c : Cursor) : Cursor :=
  if c.index = 1 then
    match layout with
    | .list => { c with base := c.headEnd + 1 }
    | .listBody | .cond _ _ => { c with base := c.base + 1 }
    | _ => c
  else c

/-- The place at which the item `f`, which is no line break, is set. -/
def enter (layout : Layout) (f : Form Hint) (c : Cursor) : Cursor :=
  if c.afterComment then (c.breakLine layout).count layout f
  else (c.count layout f).reachSecond layout

/-- The column at which an item is set. -/
def itemCol (c : Cursor) : Nat :=
  if c.gap = .space then c.col + 1 else c.col

/-- The place past the item `f`, which ends at column `w`. -/
def leave (f : Form Hint) (w : Nat) (c : Cursor) : Cursor :=
  { c with
    base := if c.hanging then c.base - 2 else c.base
    col := w
    gap := .space
    afterComment := f.isComment
    index := c.index + 1
    hanging := false
    headEnd := if c.index = 0 then w else c.headEnd }

/-- The place at which a closing delimiter is set. -/
def close (layout : Layout) (c : Cursor) : Cursor :=
  if c.afterComment then c.breakLine layout else c

end Cursor

end CljFormat.Layout
