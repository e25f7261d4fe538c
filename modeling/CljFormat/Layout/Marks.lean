/-
CljFormat.Layout.Marks — which lists are threaded into, and which strings are docstrings.

Both are read off a whole source before anything is laid out, outer forms first: a list that is
itself threaded into passes its value to one form more than a list that is not, since it has lost
its first argument.
-/
import Std.Data.TreeSet
import CljFormat.Config

namespace CljFormat.Layout

/-- Identities of forms. -/
abbrev IdSet := Std.TreeSet Nat

/-- The marked forms of a source. -/
structure Marks where
  /-- Lists that receive their first argument from a threading form around them. -/
  threaded : IdSet := ∅
  /-- Strings that document a definition. -/
  docstrings : IdSet := ∅

/-- Whether a threading form whose first receiver may stand at `start` passes its value to the
item at `index`. -/
def threadsInto (style : ThreadFirst) (start index : Nat) : Bool :=
  start ≤ index &&
    match style with
    | .normal => true
    | .condArrow => (index - start) % 2 == 1

/-- The lists that a threading form passes its value to. Items count from its head, comments and
line breaks apart. -/
def receivers (style : ThreadFirst) (start : Nat) (items : List (Form Label)) : List Nat :=
  let indexed := (items.filter Form.isSemantic).zipIdx
  (indexed.filter fun (f, index) => f.shape.list?.isSome && threadsInto style start index).map
    fun (f, _) => f.note.id

/-- The heads of forms that may document what they define. -/
def docstringForms : List String :=
  ["ns", "defmulti", "def", "defmacro", "defn"]

/-- The docstring of a definition with these items: the string behind the defined symbol, with
nothing but line breaks between them. -/
def docstring? (items : List (Form Label)) : Option Nat :=
  match items with
  | _ :: defined :: rest => do
    let _ ← defined.shape.symbol?
    let f ← (rest.dropWhile Form.isNewline).head?
    let _ ← f.shape.string?
    return f.note.id
  | _ => none

namespace Marks

/-- Adds the marks that the form `f` makes on its own items. -/
def addCall (table : IndentTable) (m : Marks) (f : Form Label) : Marks :=
  match f.call? with
  | none => m
  | some (head, items) =>
    let threaded := match table.threadFirst? head with
      | none => m.threaded
      | some style =>
        let start := if m.threaded.contains f.note.id then 1 else 2
        m.threaded.insertMany (receivers style start items)
    let docstrings :=
      if docstringForms.contains head then m.docstrings.insertMany (docstring? items).toList
      else m.docstrings
    { threaded, docstrings }

mutual

/-- Adds the marks that a form and the forms below it make. -/
def add (table : IndentTable) (m : Marks) : Form Label → Marks
  | .atom _ _ => m
  | .prefixed _ _ body => add table m body
  | .seq l b items => addAll table (m.addCall table (.seq l b items)) items

/-- Adds the marks that neighbouring forms and the forms below them make. -/
def addAll (table : IndentTable) (m : Marks) : List (Form Label) → Marks
  | [] => m
  | f :: rest => addAll table (add table m f) rest

end

end Marks

end CljFormat.Layout
