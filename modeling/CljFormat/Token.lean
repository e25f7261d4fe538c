/-
CljFormat.Token — the tokens of a source text.

A token is a kind, the place where it starts, and the text it stands for. Texts are pieces of the
source with their delimiters, so a string keeps its quotes and a character literal its backslash.
-/
import CljFormat.Position

namespace CljFormat

/-- The three pairs of delimiters. -/
inductive Delimiter
  | paren | bracket | brace
deriving DecidableEq, Repr

namespace Delimiter

/-- The delimiter's name without its side. -/
def name : Delimiter → String
  | paren => "paren"
  | bracket => "bracket"
  | brace => "brace"

end Delimiter

/-- The reader macros that start with `#`. A tag is not among them: its `#` is a token of its
own. -/
inductive Dispatch
  | set | fnLiteral | regex | readerCond | readerCondSplice | namespacedMap
  | discard | varQuote | eval | metadata
deriving DecidableEq, Repr

namespace Token

/-- What a token is. -/
inductive Kind
  | apostrophe | atSign | backtick | circumflex | tilde | newline | octothorpe
  | opening (d : Delimiter)
  | closing (d : Delimiter)
  | charLiteral | comment | keyword | number | string | symbol
  | dispatch (d : Dispatch)
deriving DecidableEq, Repr

namespace Kind

/-- The name a kind is shown by. -/
def name : Kind → String
  | apostrophe => "apostrophe"
  | atSign => "at-sign"
  | backtick => "backtick"
  | circumflex => "circumflex"
  | tilde => "tilde"
  | newline => "newline"
  | octothorpe => "octothorpe"
  | opening d => "left-" ++ d.name
  | closing d => "right-" ++ d.name
  | charLiteral => "char-literal"
  | comment => "comment"
  | keyword => "keyword"
  | number => "number"
  | string => "string"
  | symbol => "symbol"
  | dispatch _ => "dispatch"

/-- Whether tokens of this kind say more by their text than by their kind. -/
def hasText : Kind → Bool
  | charLiteral | comment | keyword | number | string | symbol | dispatch _ => true
  | _ => false

end Kind

end Token

/-- A token: its kind, where it starts, and its text. -/
structure Token where
  kind : Token.Kind
  pos : Position
  text : String
deriving DecidableEq, Repr

end CljFormat
