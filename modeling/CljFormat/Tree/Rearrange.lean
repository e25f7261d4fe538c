/-
CljFormat.Tree.Rearrange — rearranging the line breaks of a tree.

The transforms of `CljFormat.Transform` say how the items of one sequence are rearranged. Here they
are carried out on the nodes of a tree, by replacing the parts of one node after another. A
replacement can be refused: an atom has no parts, and a sigil has exactly one. The transforms never
ask for such a thing in a tree that was read, but this is a fact to be proved and not a matter of
types, so `rearrange` has a result only if every replacement is accepted.

## Order

Each root is rearranged by all transforms before the next root is. Within a root, a node is edited
before the nodes below it, and only the parts it is left with are looked at further. The roots
themselves are rearranged last.
-/
import CljFormat.Transform
import CljFormat.Tree

namespace CljFormat.Tree

/-! ## Looking at nodes -/

/-- A node as a form whose parts are cut off. It shows what kind of form the node stands for. -/
def stub (t : Tree) (id : NodeId) : Form NodeId :=
  match t.shape? id with
  | some (.atom x) => .atom id x
  | some (.prefixed s body) => .prefixed id s (.atom body .nil)
  | some (.seq b _) => .seq id b []
  | none => .atom id .nil

/-- The nodes `ids`, rearranged as forms of their kinds would be. -/
def arranged (t : Tree) (edit : List (Form NodeId) → List (Form NodeId)) (ids : List NodeId) :
    List NodeId :=
  (edit (ids.map t.stub)).map Form.note

/-- Whether a node is a list whose first part is the symbol `name`. -/
def isCallOf (t : Tree) (name : String) (id : NodeId) : Bool :=
  match (t.shape? id).bind Shape.list? with
  | some (first :: _) => (t.shape? first).bind Shape.symbol? == some name
  | _ => false

/-- Whether a node has a closing delimiter that is pulled up. -/
def closesTight (t : Tree) (id : NodeId) : Bool :=
  match t.shape? id with
  | some (.seq b _) => Transform.closesTight b
  | _ => false

/-! ## Editing one node -/

/-- Pulls up the closing delimiter of a node. -/
def tighten (t : Tree) (id : NodeId) : Except EditError Tree :=
  if t.closesTight id then
    t.setChildren id (t.arranged Transform.dropTrailingBreaks (t.children id))
  else .ok t

/-- Leaves at most one blank line in a row among the parts of a node. Two parts or fewer need no
edit. -/
def thin (t : Tree) (id : NodeId) : Except EditError Tree :=
  if 2 < (t.children id).length then
    t.setChildren id (t.arranged Transform.collapse (t.children id))
  else .ok t

/-- Rearranges the parts of a list whose first part is the symbol `name`, if that changes them. -/
def raise (name : String) (edit : List (Form NodeId) → List (Form NodeId)) (t : Tree)
    (id : NodeId) : Except EditError Tree :=
  let parts := t.arranged edit (t.children id)
  if t.isCallOf name id ∧ parts ≠ t.children id then t.setChildren id parts else .ok t

/-! ## Editing a node and the nodes below it -/

/-- Edits a node and then, one after another, each of the parts it is left with and the nodes below
them. Nodes more than `depth` levels down are left alone. -/
def editBelow (edit : Tree → NodeId → Except EditError Tree) :
    (depth : Nat) → Tree → NodeId → Except EditError Tree
  | 0, t, _ => .ok t
  | depth + 1, t, id => do
    let t ← edit t id
    (t.children id).foldlM (editBelow edit depth) t

/-! ## The transforms -/

/-- Applies one transform to the form at a root. No node is further down than there are nodes. -/
def applyTo (root : NodeId) (t : Tree) : Transform → Except EditError Tree
  | .trailing => editBelow tighten t.size t root
  | .defnArglist => raise "defn" Transform.raiseArglist t root
  | .defmethodDispatch => raise "defmethod" Transform.raiseDispatch t root
  | .blankLines => editBelow thin t.size t root

/-- Applies the transforms of `enabled` to a tree. -/
def rearrange (enabled : List Transform) (t : Tree) : Except EditError Tree := do
  let edited ← t.roots.foldlM
    (fun t root => (Transform.all.filter enabled.contains).foldlM (applyTo root) t) t
  if enabled.contains .blankLines then
    return edited.setRoots (edited.arranged Transform.collapse edited.roots)
  else return edited

end CljFormat.Tree
