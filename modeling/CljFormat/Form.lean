/-
CljFormat.Form — the forms of a source text.

A form is an atom, a sigil in front of one form, or a bracketed sequence of forms. Comments and
line breaks are atoms too, so a sequence holds everything that stands between its brackets except
blanks. Each form carries an annotation: where it was read (`Label`), or how it is laid out.

`Shape` is one level of a form with the parts left open. What can be said of a form without looking
below its parts (its kind, whether it counts as code, whether it pairs with a neighbour) is said of
shapes, and so holds of every store of forms.

## Attached forms

In `^String x` the metadata `^String` and the symbol `x` are neighbours, and so are the tag and the
string in `#inst "2020"`. Counting the keys and values of a map therefore leaves out metadata, tags
and discarded forms: each belongs to a neighbour.
-/
import CljFormat.Position

namespace CljFormat

/-- A form without parts. -/
inductive Atom
  | bool (value : Bool)
  /-- A character and its spelling, backslash included. -/
  | character (value : Char) (text : String)
  /-- A comment, lead characters included. -/
  | comment (text : String)
  /-- A keyword, colons included. -/
  | keyword (text : String)
  /-- A line break. -/
  | newline
  | nil
  /-- A number as it is spelled; nothing checks it. -/
  | number (text : String)
  /-- A regular expression without its quotes. -/
  | regex (text : String)
  /-- A string without its quotes, escapes as they are spelled. -/
  | string (text : String)
  | symbol (text : String)
  /-- A tag without its `#`. -/
  | tag (text : String)
  /-- A quoted variable without its `#'`. -/
  | varQuote (text : String)
deriving DecidableEq, Repr

/-- A mark in front of one form. -/
inductive Sigil
  | deref | metadata | quote | readerDiscard | readerEval | syntaxQuote | unquote | unquoteSplice
deriving DecidableEq, Repr

/-- What encloses a sequence of forms. -/
inductive Bracket
  | fnLiteral | list
  /-- A map; the namespace its keys are in, if it names one, with its colons. -/
  | map (namespace? : Option String)
  | readerCond | readerCondSplice | set | vector
deriving DecidableEq, Repr

/-- One level of a form whose parts are given as `β`. -/
inductive Shape (β : Type)
  | atom (x : Atom)
  | prefixed (s : Sigil) (body : β)
  | seq (b : Bracket) (items : List β)
deriving DecidableEq, Repr

/-- A form, every level of which carries an annotation. -/
inductive Form (α : Type)
  | atom (note : α) (x : Atom)
  | prefixed (note : α) (s : Sigil) (body : Form α)
  | seq (note : α) (b : Bracket) (items : List (Form α))

/-- The identity of a form and the place where it starts. -/
structure Label where
  id : Nat
  pos : Position
deriving DecidableEq, Repr

/-! ## Kinds -/

/-- The kind of an atom. -/
def Atom.kindName : Atom → String
  | bool _ => "BoolNode"
  | character _ _ => "CharacterNode"
  | comment _ => "CommentNode"
  | keyword _ => "KeywordNode"
  | newline => "NewlineNode"
  | nil => "NilNode"
  | number _ => "NumberNode"
  | regex _ => "RegexNode"
  | string _ => "StringNode"
  | symbol _ => "SymbolNode"
  | tag _ => "TagNode"
  | varQuote _ => "VarQuoteNode"

/-- The kind of a form under a sigil. -/
def Sigil.kindName : Sigil → String
  | deref => "DerefNode"
  | metadata => "MetadataNode"
  | quote => "QuoteNode"
  | readerDiscard => "ReaderDiscardNode"
  | readerEval => "ReaderEvalNode"
  | syntaxQuote => "SyntaxQuoteNode"
  | unquote => "UnquoteNode"
  | unquoteSplice => "UnquoteSpliceNode"

/-- The kind of a sequence. -/
def Bracket.kindName : Bracket → String
  | fnLiteral => "FnLiteralNode"
  | list => "ListNode"
  | map _ => "MapNode"
  | readerCond => "ReaderCondNode"
  | readerCondSplice => "ReaderCondSpliceNode"
  | set => "SetNode"
  | vector => "VectorNode"

namespace Shape

variable {β : Type}

/-- The kind of a form. -/
def kindName : Shape β → String
  | atom x => x.kindName
  | prefixed s _ => s.kindName
  | seq b _ => b.kindName

/-- The parts of a form, in order. -/
def parts : Shape β → List β
  | atom _ => []
  | prefixed _ body => [body]
  | seq _ items => items

/-- Whether the form is a line break. -/
def isNewline : Shape β → Bool
  | atom .newline => true
  | _ => false

/-- Whether the form is a comment. -/
def isComment : Shape β → Bool
  | atom (.comment _) => true
  | _ => false

/-- Whether the form is code: neither a comment nor a line break. -/
def isSemantic (s : Shape β) : Bool :=
  !s.isNewline && !s.isComment

/-- Whether the form belongs to a neighbour. -/
def isAttached : Shape β → Bool
  | atom (.tag _) => true
  | prefixed .metadata _ => true
  | prefixed .readerDiscard _ => true
  | _ => false

/-- Whether the form counts as a key or a value of a map. -/
def isPaired (s : Shape β) : Bool :=
  s.isSemantic && !s.isAttached

/-- The name, if the form is a symbol. -/
def symbol? : Shape β → Option String
  | atom (.symbol text) => some text
  | _ => none

/-- The text, if the form is a keyword. -/
def keyword? : Shape β → Option String
  | atom (.keyword text) => some text
  | _ => none

/-- The text, if the form is a string. -/
def string? : Shape β → Option String
  | atom (.string text) => some text
  | _ => none

/-- The items, if the form is a list. -/
def list? : Shape β → Option (List β)
  | seq .list items => some items
  | _ => none

/-- The items, if the form is a vector. -/
def vector? : Shape β → Option (List β)
  | seq .vector items => some items
  | _ => none

/-- The items, if the form is a list or a vector. -/
def listOrVector? (s : Shape β) : Option (List β) :=
  s.list? <|> s.vector?

end Shape

/-! ## Forms -/

namespace Form

variable {α : Type}

/-- The annotation of a form. -/
def note : Form α → α
  | atom note _ => note
  | prefixed note _ _ => note
  | seq note _ _ => note

/-- The outermost level of a form. -/
def shape : Form α → Shape (Form α)
  | atom _ x => .atom x
  | prefixed _ s body => .prefixed s body
  | seq _ b items => .seq b items

/-- The forms directly below a form, in order. -/
def parts (f : Form α) : List (Form α) :=
  f.shape.parts

/-- Whether a form is a line break. -/
def isNewline (f : Form α) : Bool :=
  f.shape.isNewline

/-- Whether a form is a comment. -/
def isComment (f : Form α) : Bool :=
  f.shape.isComment

/-- Whether a form is code: neither a comment nor a line break. -/
def isSemantic (f : Form α) : Bool :=
  f.shape.isSemantic

/-- Whether a form counts as a key or a value of a map. -/
def isPaired (f : Form α) : Bool :=
  f.shape.isPaired

/-- The name at the head of a list and the items of the list, if its first item is a symbol. -/
def call? (f : Form α) : Option (String × List (Form α)) := do
  let items ← f.shape.list?
  let head ← items.head?
  let name ← head.shape.symbol?
  return (name, items)

/-- Whether a form is a list whose first item is the symbol `name`. -/
def isCallOf (name : String) (f : Form α) : Bool :=
  match f.call? with
  | some (head, _) => head == name
  | none => false

end Form

end CljFormat
