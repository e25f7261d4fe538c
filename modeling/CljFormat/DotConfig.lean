/-
CljFormat.DotConfig — indentation styles from a settings file.

A settings file is a map. The value of its first key `:indent-overrides` is a list or vector of
pairs: a string, or a list or vector of strings, and the keyword of a style, which all these names
get. Of several styles for one name the last holds. Other keys are passed over, and a file without
forms has no overrides.
-/
import CljFormat.Config

namespace CljFormat.DotConfig

/-- Why a settings file is refused. -/
inductive LoadError
  | malformed (e : SyntaxError)
  /-- A form of this kind stands where it cannot. -/
  | unexpectedNode (kind : String) (pos : Position)
  /-- The map at `pos` has a key without a value. -/
  | oddMap (pos : Position)
  /-- Names come without a style. -/
  | oddOverrides
  /-- No style has this keyword. -/
  | unknownStyle (keyword : String)
deriving DecidableEq, Repr

/-- The wording of a refusal of the file called `name`. -/
def LoadError.message (name : String) : LoadError → String
  | malformed e => e.message name
  | unexpectedNode kind pos => s!"found unexpected node ({kind}) at {pos.describe name}"
  | oddMap pos => s!"map value at {pos.describe name} has odd number of children"
  | oddOverrides => ":indent-overrides value has odd number of children"
  | unknownStyle keyword => "unknown indent style " ++ Text.quoted keyword

/-- Refuses a form for its kind. -/
def unexpected {β : Type} (f : Form Label) : Except LoadError β :=
  .error (.unexpectedNode f.shape.kindName f.note.pos)

/-- The text of a string. -/
def stringText (f : Form Label) : Except LoadError String :=
  match f.shape.string? with
  | some text => .ok text
  | none => unexpected f

/-- The names that a form lists. -/
def names (f : Form Label) : Except LoadError (List String) :=
  match f.shape.listOrVector? with
  | some items => items.mapM stringText
  | none => do return [← stringText f]

/-- The style that a form names. -/
def style (f : Form Label) : Except LoadError IndentStyle :=
  match f.shape.keyword? with
  | none => unexpected f
  | some keyword =>
    match IndentStyle.ofKeyword? keyword with
    | some style => .ok style
    | none => .error (.unknownStyle keyword)

/-- Adds the overrides written by pairs of names and styles. -/
def addPairs (styles : StyleMap) : List (Form Label) → Except LoadError StyleMap
  | group :: value :: rest => do
    let names ← names group
    let style ← style value
    addPairs (names.foldl (fun styles name => styles.insert name style) styles) rest
  | _ => .ok styles

/-- The overrides that the value of `:indent-overrides` writes. -/
def overrides (value : Form Label) : Except LoadError StyleMap :=
  match value.shape.listOrVector? with
  | none => unexpected value
  | some items => if items.length % 2 = 1 then .error .oddOverrides else addPairs ∅ items

/-- The value of the first key `:indent-overrides` among keys and values. -/
def findOverrides? : List (Form Label) → Option (Form Label)
  | key :: value :: rest =>
    if key.shape.keyword? = some ":indent-overrides" then some value else findOverrides? rest
  | _ => none

/-- The overrides of a settings file with these forms. -/
def ofForms : List (Form Label) → Except LoadError StyleMap
  | [] => .ok ∅
  | [.seq l (.map _) items] =>
    if items.length % 2 = 1 then .error (.oddMap l.pos)
    else
      match findOverrides? items with
      | some value => overrides value
      | none => .ok ∅
  | [root] => unexpected root
  | _ :: extra :: _ => unexpected extra

/-- The overrides of the settings file `source`. -/
def load (source : String) : Except LoadError StyleMap :=
  match Reader.read {} source with
  | .ok d => ofForms d.roots
  | .error e => .error (.malformed e)

end CljFormat.DotConfig
