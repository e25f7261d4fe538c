/-
CljFormat.Transform — optional rearrangements of line breaks.

Four transforms move or drop line breaks, and nothing else, before a source is laid out:

* `trailing` drops the line breaks in front of a closing delimiter, save one that ends a comment;
* `defnArglist` moves an argument vector up to the line of the name that `defn` defines;
* `defmethodDispatch` does so with the keyword that `defmethod` dispatches on;
* `blankLines` leaves at most one blank line in a row.

They run in this order on each top-level form, and `blankLines` at last on the top level itself.
-/
import CljFormat.Form

namespace CljFormat

/-- A rearrangement of line breaks. -/
inductive Transform
  | trailing | defnArglist | defmethodDispatch | blankLines
deriving DecidableEq, Repr

namespace Transform

/-- Every transform, in the order in which they run. -/
def all : List Transform :=
  [trailing, defnArglist, defmethodDispatch, blankLines]

/-- The name that requests a transform. -/
def name : Transform → String
  | trailing => "remove-trailing-newlines"
  | defnArglist => "fix-defn-arglist-newline"
  | defmethodDispatch => "fix-defmethod-dispatch-val-newline"
  | blankLines => "remove-extra-blank-lines"

/-- The transform that a name requests. -/
def ofName? (text : String) : Option Transform :=
  all.find? fun transform => transform.name == text

variable {α : Type}

/-! ## Line breaks in front of a closing delimiter -/

/-- Drops line breaks from the end of a sequence given backwards. One that follows a comment stays:
it keeps the closing delimiter out of the comment. -/
def dropLeadingBreaks : List (Form α) → List (Form α)
  | [] => []
  | [f] => if f.isNewline then [] else [f]
  | f :: g :: rest =>
    if f.isNewline && !g.isComment then dropLeadingBreaks (g :: rest) else f :: g :: rest

/-- Drops line breaks from the end of a sequence. -/
def dropTrailingBreaks (items : List (Form α)) : List (Form α) :=
  (dropLeadingBreaks items.reverse).reverse

/-- The brackets whose closing delimiter is pulled up. -/
def closesTight : Bracket → Bool
  | .fnLiteral | .list | .map _ | .set | .vector => true
  | .readerCond | .readerCondSplice => false

mutual

/-- Pulls up every closing delimiter of a form. -/
def pullUp : Form α → Form α
  | .atom note x => .atom note x
  | .prefixed note s body => .prefixed note s (pullUp body)
  | .seq note b items =>
    .seq note b (if closesTight b then dropTrailingBreaks (pullUpAll items) else pullUpAll items)

/-- Pulls up every closing delimiter of neighbouring forms. -/
def pullUpAll : List (Form α) → List (Form α)
  | [] => []
  | f :: rest => pullUp f :: pullUpAll rest

end

/-! ## Line breaks behind a defined name -/

/-- Puts the argument vector of a definition before the line break that stands between it and the
name, if something follows the vector on its line. -/
def raiseArglist : List (Form α) → List (Form α)
  | head :: name :: br :: args :: body :: rest =>
    if br.isNewline && !body.isNewline && args.shape.vector?.isSome then
      head :: name :: args :: br :: body :: rest
    else head :: name :: br :: args :: body :: rest
  | items => items

/-- Puts the dispatch keyword of a method before the line break that stands between it and the
name. If another line break follows the keyword, the first is dropped. -/
def raiseDispatch : List (Form α) → List (Form α)
  | head :: name :: br :: value :: body :: rest =>
    if br.isNewline && value.shape.keyword?.isSome then
      if body.isNewline then head :: name :: value :: body :: rest
      else head :: name :: value :: br :: body :: rest
    else head :: name :: br :: value :: body :: rest
  | items => items

/-- Applies `edit` to the items of a list whose first item is the symbol `name`. -/
def editCallOf (name : String) (edit : List (Form α) → List (Form α)) (f : Form α) : Form α :=
  if f.isCallOf name then
    match f with
    | .seq note b items => .seq note b (edit items)
    | f => f
  else f

/-! ## Blank lines -/

/-- Drops the line breaks that come after `seen` others in a row, past the second. -/
def collapseAfter (seen : Nat) : List (Form α) → List (Form α)
  | [] => []
  | f :: rest =>
    if f.isNewline then
      if seen < 2 then f :: collapseAfter (seen + 1) rest else collapseAfter (seen + 1) rest
    else f :: collapseAfter 0 rest

/-- Leaves at most two line breaks in a row. -/
def collapse (items : List (Form α)) : List (Form α) :=
  collapseAfter 0 items

mutual

/-- Leaves at most one blank line in a row anywhere in a form. -/
def squeeze : Form α → Form α
  | .atom note x => .atom note x
  | .prefixed note s body => .prefixed note s (squeeze body)
  | .seq note b items => .seq note b (collapse (squeezeAll items))

/-- Leaves at most one blank line in a row inside neighbouring forms. -/
def squeezeAll : List (Form α) → List (Form α)
  | [] => []
  | f :: rest => squeeze f :: squeezeAll rest

end

/-! ## All of them -/

/-- Applies one transform to a top-level form. -/
def applyTo (f : Form α) : Transform → Form α
  | trailing => pullUp f
  | defnArglist => editCallOf "defn" raiseArglist f
  | defmethodDispatch => editCallOf "defmethod" raiseDispatch f
  | blankLines => squeeze f

/-- Applies the transforms of `enabled` to a source. -/
def applyAll (enabled : List Transform) (roots : List (Form α)) : List (Form α) :=
  let edited := roots.map fun f => (all.filter enabled.contains).foldl applyTo f
  if enabled.contains blankLines then collapse edited else edited

end Transform

end CljFormat
