/-
CljFormat.Form.Outline — forms as an indented list of descriptions.

`Shape.describe` names one form in a few words: its kind and its text, or how many forms it holds.
`Form.outline` writes one line per form in document order, two spaces deeper than the form above.
-/
import CljFormat.Form
import CljFormat.Text.Quoted

namespace CljFormat

/-- An atom in a few words. -/
def Atom.describe : Atom → String
  | bool true => "true"
  | bool false => "false"
  | character value _ => "char(" ++ Text.quotedChar value ++ ")"
  | comment text => "comment(" ++ Text.quoted text ++ ")"
  | keyword text => "keyword(" ++ text ++ ")"
  | newline => "newline"
  | nil => "nil"
  | number text => "num(" ++ text ++ ")"
  | regex text => "regex(" ++ Text.quoted text ++ ")"
  | string text => "string(" ++ Text.quoted text ++ ")"
  | symbol text => "sym(" ++ text ++ ")"
  | tag text => "tag(" ++ text ++ ")"
  | varQuote text => "varquote(" ++ text ++ ")"

/-- A form under a sigil in a few words. -/
def Sigil.describe : Sigil → String
  | deref => "deref"
  | metadata => "metadata"
  | quote => "quote"
  | readerDiscard => "discard"
  | readerEval => "eval"
  | syntaxQuote => "syntax quote"
  | unquote => "unquote"
  | unquoteSplice => "unquote splice"

/-- A sequence in a few words. `semantic` of its items are code, and `paired` of them keys or
values. -/
def Bracket.describe (semantic paired : Nat) : Bracket → String
  | fnLiteral => s!"lambda(length={semantic})"
  | list => s!"list(length={semantic})"
  | map none => s!"map(length={paired / 2})"
  | map (some ns) => s!"map(ns={ns}, length={paired / 2})"
  | readerCond => s!"reader-cond(length={semantic})"
  | readerCondSplice => s!"reader-cond-splice(length={semantic})"
  | set => s!"set(length={semantic})"
  | vector => s!"vector(length={semantic})"

/-- A form in a few words, given how many of its parts are code and how many keys or values. -/
def Shape.describe {β : Type} (semantic paired : Nat) : Shape β → String
  | atom x => x.describe
  | prefixed s _ => s.describe
  | seq b _ => b.describe semantic paired

/-- The line that describes a form at `depth`. -/
def outlineLine (depth : Nat) (description : String) : String :=
  String.ofList (List.replicate (2 * depth) ' ') ++ description ++ "\n"

namespace Form

variable {α : Type}

/-- A form in a few words. -/
def describe (f : Form α) : String :=
  f.shape.describe (f.parts.countP Form.isSemantic) (f.parts.countP Form.isPaired)

mutual

/-- A form and the forms below it, one line each. -/
def outline (depth : Nat) : Form α → String
  | atom note x => outlineLine depth (atom note x).describe
  | prefixed note s body =>
    outlineLine depth (prefixed note s body).describe ++ outline (depth + 1) body
  | seq note b items =>
    outlineLine depth (seq note b items).describe ++ outlineAll (depth + 1) items

/-- Neighbouring forms and the forms below them, one line each. -/
def outlineAll (depth : Nat) : List (Form α) → String
  | [] => ""
  | f :: rest => outline depth f ++ outlineAll depth rest

end

mutual

/-- How many forms there are in a form, itself included. -/
def size : Form α → Nat
  | atom _ _ => 1
  | prefixed _ _ body => body.size + 1
  | seq _ _ items => sizeAll items + 1

/-- How many forms there are in neighbouring forms. -/
def sizeAll : List (Form α) → Nat
  | [] => 0
  | f :: rest => f.size + sizeAll rest

end

end Form

end CljFormat
