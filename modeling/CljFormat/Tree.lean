/-
CljFormat.Tree — forms as nodes that can be edited.

A tree stores each form under its identity, with its parts given by their identities. A node may be
a part of several others; its parent is the last of them that was given it. Edits replace the parts
of one node or the roots, and touch parents but no other node.

`forms` unfolds the roots into forms, so that what is said of forms can be said of a tree. A node
that is part of itself has no such form: unfolding goes as deep as there are nodes, which is enough
whenever no node is below itself.
-/
import Std.Data.TreeMap
import CljFormat.Form.Outline
import CljFormat.Form.Reader

namespace CljFormat

/-- The identity of a node. -/
abbrev NodeId := Nat

/-- A node: where its form starts, its outermost level, and the node it was last made part of. -/
structure Node where
  pos : Position
  shape : Shape NodeId
  parent : Option NodeId := none
deriving DecidableEq, Repr

/-- Nodes by identity, and the identities of the roots. -/
structure Tree where
  nodes : Std.TreeMap NodeId Node := ∅
  /-- How many identities were given out. -/
  size : Nat := 0
  roots : List NodeId := []

/-- Why an edit is refused. -/
inductive EditError
  /-- No node has the identity. -/
  | unknownNode
  /-- A node of this kind has no parts. -/
  | leaf (kind : String)
  /-- A node of this kind has exactly one part. -/
  | arity (kind : String) (given : Nat)
deriving DecidableEq, Repr

/-- The wording of a refusal. -/
def EditError.message : EditError → String
  | unknownNode => "unknown node id"
  | leaf kind => s!"cannot set children of leaf node {kind}"
  | arity kind given => s!"{kind} must have exactly one child, got {given}"

namespace Tree

/-! ## Reading a tree -/

/-- Whether a node has the identity `id`. -/
def contains (t : Tree) (id : NodeId) : Bool :=
  t.nodes.contains id

/-- The outermost level of a node. -/
def shape? (t : Tree) (id : NodeId) : Option (Shape NodeId) :=
  t.nodes[id]?.map Node.shape

/-- The parts of a node, in order. -/
def children (t : Tree) (id : NodeId) : List NodeId :=
  ((t.shape? id).map Shape.parts).getD []

/-- The node of which a node was last made part. -/
def parent? (t : Tree) (id : NodeId) : Option NodeId :=
  t.nodes[id]?.bind Node.parent

/-- How many of the nodes satisfy `p`. -/
def countShapes (t : Tree) (p : Shape NodeId → Bool) (ids : List NodeId) : Nat :=
  ids.countP fun id => (t.shape? id).any p

/-- How many of the nodes are code. -/
def countSemantic (t : Tree) (ids : List NodeId) : Nat :=
  t.countShapes Shape.isSemantic ids

/-- How many of the nodes count as a key or a value of a map. -/
def countPaired (t : Tree) (ids : List NodeId) : Nat :=
  t.countShapes Shape.isPaired ids

/-- Whether a node is a list whose first part is the symbol `comment`. -/
def isCommentForm (t : Tree) (id : NodeId) : Bool :=
  match (t.shape? id).bind Shape.list? with
  | some (first :: _) => (t.shape? first).bind Shape.symbol? == some "comment"
  | _ => false

/-- A node in a few words. -/
def describe (t : Tree) (id : NodeId) : String :=
  let parts := t.children id
  ((t.shape? id).map (Shape.describe (t.countSemantic parts) (t.countPaired parts))).getD ""

/-- The form that a node stands for, if no path of more than `depth` nodes starts at it. Parts
without such a form are left out. -/
def unfold (t : Tree) : (depth : Nat) → NodeId → Option (Form Label)
  | 0, _ => none
  | depth + 1, id => do
    let node ← t.nodes[id]?
    match node.shape with
    | .atom x => some (.atom ⟨id, node.pos⟩ x)
    | .prefixed s body => (unfold t depth body).map (.prefixed ⟨id, node.pos⟩ s)
    | .seq b items => some (.seq ⟨id, node.pos⟩ b (items.filterMap (unfold t depth)))

/-- The forms that the roots stand for. -/
def forms (t : Tree) : List (Form Label) :=
  t.roots.filterMap (t.unfold t.size)

/-- At most `count` nodes in document order, starting with those in `waiting`. -/
def visit (t : Tree) : (count : Nat) → (waiting : List NodeId) → List NodeId
  | 0, _ => []
  | _, [] => []
  | count + 1, id :: rest => id :: visit t count (t.children id ++ rest)

/-- The nodes below the roots in document order, a shared node once for every path to it. -/
def flatten (t : Tree) : List NodeId :=
  t.visit (Form.sizeAll t.forms) t.roots

/-- The roots and the nodes below them, one indented line each. -/
def outline (t : Tree) : String :=
  Form.outlineAll 0 t.forms

/-! ## Editing a tree -/

/-- Gives the nodes `ids` the parent `parent`. -/
def setParents (t : Tree) (parent : Option NodeId) (ids : List NodeId) : Tree :=
  { t with nodes := ids.foldl (fun nodes id => nodes.modify id ({ · with parent })) t.nodes }

/-- Adds a node and makes it the parent of its parts. -/
def alloc (t : Tree) (pos : Position) (shape : Shape NodeId) : NodeId × Tree :=
  let id := t.size
  let linked := t.setParents (some id) shape.parts
  (id, { linked with nodes := linked.nodes.insert id { pos, shape }, size := id + 1 })

/-- A level of the same kind with other parts. -/
def replaceParts (shape : Shape NodeId) (parts : List NodeId) :
    Except EditError (Shape NodeId) :=
  match shape with
  | .atom x => .error (.leaf x.kindName)
  | .prefixed s _ =>
    match parts with
    | [body] => .ok (.prefixed s body)
    | _ => .error (.arity s.kindName parts.length)
  | .seq b _ => .ok (.seq b parts)

/-- Replaces the parts of a node and makes it their parent. -/
def setChildren (t : Tree) (id : NodeId) (parts : List NodeId) : Except EditError Tree :=
  match t.nodes[id]? with
  | none => .error .unknownNode
  | some node =>
    match replaceParts node.shape parts with
    | .error e => .error e
    | .ok shape =>
      .ok ({ t with nodes := t.nodes.insert id { node with shape } }.setParents (some id) parts)

/-- Replaces the roots, which have no parents. -/
def setRoots (t : Tree) (roots : List NodeId) : Tree :=
  { t.setParents none roots with roots }

/-! ## Trees of documents -/

mutual

/-- The nodes of a form that is part of `parent`, added to `nodes`. -/
def addForm (parent : Option NodeId) (nodes : Std.TreeMap NodeId Node) :
    Form Label → Std.TreeMap NodeId Node
  | .atom l x => nodes.insert l.id ⟨l.pos, .atom x, parent⟩
  | .prefixed l s body =>
    addForm (some l.id) (nodes.insert l.id ⟨l.pos, .prefixed s body.note.id, parent⟩) body
  | .seq l b items =>
    addForms (some l.id)
      (nodes.insert l.id ⟨l.pos, .seq b (items.map fun item => item.note.id), parent⟩) items

/-- The nodes of neighbouring forms, added to `nodes`. -/
def addForms (parent : Option NodeId) (nodes : Std.TreeMap NodeId Node) :
    List (Form Label) → Std.TreeMap NodeId Node
  | [] => nodes
  | f :: rest => addForms parent (addForm parent nodes f) rest

end

/-- The tree of forms that were numbered below `size`. A number that no form has is left
vacant. -/
def ofDocument (d : Reader.Document) : Tree :=
  ⟨addForms none ∅ d.roots, d.size, d.roots.map fun root => root.note.id⟩

end Tree

end CljFormat
