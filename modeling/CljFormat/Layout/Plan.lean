/-
CljFormat.Layout.Plan — how each form of a source is laid out.

Planning replaces the label of every form by a `Hint`: the layout of its items, and whether it is a
docstring. The layout of a list follows from its head; but a list can also decide about forms inside
it, binding vectors and method bodies, before they are reached. Such decisions wait in `Pending`
until the form they are about is planned, and are used up by it.

## The style of a symbol

The symbol as it is written comes first, then the symbol that its alias or the namespace it is
referred from makes of it, then its name alone, and at last a guess from how the name starts.
-/
import CljFormat.Layout.Aliases
import CljFormat.Layout.Marks
import CljFormat.Symbol

namespace CljFormat

/-- Where the items of a sequence are set. -/
inductive Layout
  /-- Lines start where the first item does. -/
  | normal
  /-- Lines start under the second item, or one column deeper than the first if it ends its line. -/
  | list
  /-- Lines start one column deeper than the first item. -/
  | listBody
  /-- Lines start where the first item does, and the second of a pair two columns deeper. -/
  | bindings
  /-- Lines start one column deeper than the first item, and the second of a pair two columns
  deeper still; `leading` single items come between the head and the pairs. With `arrows`, a
  `:>>` behind the first of a pair does not count. -/
  | cond (leading : Nat) (arrows : Bool)
deriving DecidableEq, Repr

namespace Layout

/-- The layout that a style gives to its own list. -/
def ofStyle (style : IndentStyle) : Layout :=
  match style.leadingArgs? with
  | some leading => .cond leading false
  | none =>
    match style with
    | .normal => .normal
    | .list => .list
    | _ => .listBody

/-- Lets `:>>` pass between the two of a pair. -/
def withArrows : Layout → Layout
  | .cond leading _ => .cond leading true
  | layout => layout

/-- What the layout of a form is decided by. -/
structure Hint where
  /-- The layout of the items of a sequence. -/
  layout : Layout := .normal
  /-- Whether a string is a docstring. -/
  docstring : Bool := false
deriving DecidableEq, Repr

/-- What a source says about the layout of its forms. -/
structure Context where
  table : IndentTable
  aliases : Aliases
  marks : Marks

namespace Context

/-- What the forms of a source say. -/
def ofRoots (table : IndentTable) (roots : List (Form Label)) : Context where
  table := table
  aliases := Aliases.ofRoots roots
  marks := Marks.addAll table {} roots

/-- A symbol under the namespace that its alias stands for, or that it is referred from. -/
def resolve? (ctx : Context) (sym : String) : Option String :=
  match Symbol.split? sym with
  | some (qualifier, name) => (ctx.aliases.namespaceOf? qualifier).map fun ns => Symbol.join ns name
  | none => (ctx.aliases.referredFrom? sym).map fun ns => Symbol.join ns sym

/-- The style of a symbol. -/
def style? (ctx : Context) (sym : String) : Option IndentStyle :=
  let name := Symbol.baseName sym
  ctx.table.style? sym <|> (ctx.resolve? sym).bind ctx.table.style? <|> ctx.table.style? name <|>
    IndentStyle.guess? name

/-- The style of a list by its first item. -/
def headStyle {α : Type} (ctx : Context) (items : List (Form α)) : IndentStyle :=
  match items with
  | [] => .normal
  | head :: _ =>
    if head.shape.keyword?.isSome then .list
    else
      match head.shape.symbol? with
      | some sym => (ctx.style? sym).getD .list
      | none => .normal

end Context

/-- Decisions about forms that are still to be planned. -/
structure Pending where
  /-- Vectors whose items are pairs. -/
  bindings : List Nat := []
  /-- Lists laid out as bodies whatever their heads. -/
  bodies : List Nat := []
deriving DecidableEq, Repr

/-- The first form behind the head of a list, if it is a vector: its identity and items. -/
def firstVector? (items : List (Form Label)) : Option (Nat × List (Form Label)) := do
  let f ← (items.drop 1).find? Form.isSemantic
  let inner ← f.shape.vector?
  return (f.note.id, inner)

/-- The vectors that come directly behind the keyword `:let`. -/
def letModifiers (items : List (Form Label)) : List Nat :=
  let semantic := items.filter Form.isSemantic
  ((semantic.zip (semantic.drop 1)).filter fun (key, value) =>
    key.shape.keyword? == some ":let" && value.shape.vector?.isSome).map
      fun (_, value) => value.note.id

/-- The lists among some forms. -/
def listsAmong (items : List (Form Label)) : List Nat :=
  (items.filter fun f => f.shape.list?.isSome).map fun f => f.note.id

namespace Pending

/-- What a list of the style `style` decides about forms inside it. -/
def ofCall (style : IndentStyle) (items : List (Form Label)) : Pending :=
  match style with
  | .letStyle => { bindings := ((firstVector? items).map Prod.fst).toList }
  | .forStyle =>
    match firstVector? items with
    | some (vector, inner) => { bindings := vector :: letModifiers inner }
    | none => {}
  | .letfn => { bodies := listsAmong (((firstVector? items).map Prod.snd).getD []) }
  | .deftype => { bodies := listsAmong (items.drop 1) }
  | _ => {}

/-- The decisions of both. -/
def merge (p q : Pending) : Pending :=
  ⟨p.bindings ++ q.bindings, p.bodies ++ q.bodies⟩

/-- The decisions that are not about `id`. -/
def dropBindings (p : Pending) (id : Nat) : Pending :=
  { p with bindings := p.bindings.filter (· != id) }

/-- The decisions that do not make a body of `id`. -/
def dropBody (p : Pending) (id : Nat) : Pending :=
  { p with bodies := p.bodies.filter (· != id) }

end Pending

/-- The layout of a list, and what is pending behind it. -/
def ofList (ctx : Context) (p : Pending) (id : Nat) (items : List (Form Label)) :
    Layout × Pending :=
  let resolved := ctx.headStyle items
  let waiting := (Pending.ofCall resolved items).merge p
  let style := if waiting.bodies.contains id then .listBody else resolved
  let style := if ctx.marks.threaded.contains id then style.threaded else style
  let layout := ofStyle style
  let isCondp := (items.head?.bind fun head => head.shape.symbol?).any fun sym =>
    Symbol.baseName sym == "condp"
  (if isCondp then layout.withArrows else layout, waiting.dropBody id)

/-- The layout of the items of a sequence, and what is pending behind its opening delimiter. -/
def ofSeq (ctx : Context) (p : Pending) (id : Nat) (b : Bracket) (items : List (Form Label)) :
    Layout × Pending :=
  match b with
  | .list => ofList ctx p id items
  | .fnLiteral => (ofStyle (ctx.headStyle items), p)
  | .vector => (if p.bindings.contains id then .bindings else .normal, p.dropBindings id)
  | _ => (.normal, p)

mutual

/-- Plans a form, given what is pending before it. -/
def plan (ctx : Context) (p : Pending) : Form Label → Form Hint × Pending
  | .atom l x => (.atom { docstring := ctx.marks.docstrings.contains l.id } x, p)
  | .prefixed _ s body =>
    let (body, p) := plan ctx p body
    (.prefixed {} s body, p)
  | .seq l b items =>
    let (layout, p) := ofSeq ctx p l.id b items
    let (items, p) := planAll ctx p items
    (.seq { layout } b items, p)

/-- Plans neighbouring forms in order. -/
def planAll (ctx : Context) (p : Pending) : List (Form Label) → List (Form Hint) × Pending
  | [] => ([], p)
  | f :: rest =>
    let (f, p) := plan ctx p f
    let (rest, p) := planAll ctx p rest
    (f :: rest, p)

end

end Layout

end CljFormat
