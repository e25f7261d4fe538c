/-
CljFormat.Token.Scan — from characters to tokens.

`lexeme` looks at one character and what follows it, and says what starts there: something to skip,
a token, or a fault. `scanFrom` applies it along the source and keeps the position. Every token
stands for the characters it takes, save that `#{`, `#(`, `#"` and `#:` also show the character
after the `#`, which they leave for the next token.

## Which characters form a token

* A symbol, keyword or number is a longest run of symbol characters; its first character decides
  which, a sign counting as part of a number when a digit follows.
* A comment runs up to a carriage return or line feed, which it leaves.
* A string runs to the first quote that no backslash escapes.
* A character literal is a backslash, any one character, and a run of symbol characters.
* A line feed is a token; the other blanks are skipped.
-/
import CljFormat.SyntaxError
import CljFormat.Text.Blank
import CljFormat.Token

namespace CljFormat

/-- What starts at a character. -/
inductive Lexeme
  /-- Nothing: the character separates tokens. -/
  | blank
  /-- A token that takes the characters `body` after the first, and shows `ahead` besides. -/
  | token (kind : Token.Kind) (body ahead : List Char)
  | fault (cause : ScanFault)
deriving DecidableEq, Repr

/-- The characters of a string after its opening quote, closing quote included; `none` if it is
never closed. `escaped` says whether a backslash stands before the first character. -/
def stringBody (escaped : Bool) : List Char → Option (List Char)
  | [] => none
  | c :: cs =>
    if c = '"' ∧ escaped = false then some ['"']
    else (stringBody (c == '\\' && !escaped) cs).map (c :: ·)

namespace Lexeme

/-- A token of one character. -/
def single (kind : Token.Kind) : Lexeme :=
  token kind [] []

/-- A token that takes the symbol characters that follow. -/
def run (kind : Token.Kind) (cs : List Char) : Lexeme :=
  token kind (cs.takeWhile Text.isSymbolChar) []

/-- A comment, which takes the rest of its line. -/
def comment (lead cs : List Char) : Lexeme :=
  token .comment (lead ++ cs.takeWhile fun c => c != '\r' && c != '\n') []

/-- What starts at a `#` followed by `cs`. -/
def dispatch : List Char → Lexeme
  | '{' :: _ => token (.dispatch .set) [] ['{']
  | '(' :: _ => token (.dispatch .fnLiteral) [] ['(']
  | '"' :: _ => token (.dispatch .regex) [] ['"']
  | ':' :: _ => token (.dispatch .namespacedMap) [] [':']
  | '?' :: '@' :: _ => token (.dispatch .readerCondSplice) ['?', '@'] []
  | '?' :: _ => token (.dispatch .readerCond) ['?'] []
  | '\'' :: _ => token (.dispatch .varQuote) ['\''] []
  | '_' :: _ => token (.dispatch .discard) ['_'] []
  | '^' :: _ => token (.dispatch .metadata) ['^'] []
  | '=' :: _ => token (.dispatch .eval) ['='] []
  | '!' :: cs => comment ['!'] cs
  | '<' :: _ => fault .unreadableDispatch
  | _ => single .octothorpe

/-- What starts at a sign followed by `cs`. -/
def sign (cs : List Char) : Lexeme :=
  match cs with
  | d :: _ => if d.isDigit then run .number cs else run .symbol cs
  | [] => run .symbol cs

/-- What starts at `c` followed by `cs`. -/
def ofChars (c : Char) (cs : List Char) : Lexeme :=
  match c with
  | ';' => comment [] cs
  | '"' =>
    match stringBody false cs with
    | some body => token .string body []
    | none => fault .unclosedString
  | '\\' =>
    match cs with
    | d :: rest => token .charLiteral (d :: rest.takeWhile Text.isSymbolChar) []
    | [] => fault .bareBackslash
  | ':' => run .keyword cs
  | '%' => run .symbol cs
  | '#' => dispatch cs
  | '+' => sign cs
  | '-' => sign cs
  | '\'' => single .apostrophe
  | '@' => single .atSign
  | '\x60' => single .backtick
  | '^' => single .circumflex
  | '{' => single (.opening .brace)
  | '[' => single (.opening .bracket)
  | '(' => single (.opening .paren)
  | '}' => single (.closing .brace)
  | ']' => single (.closing .bracket)
  | ')' => single (.closing .paren)
  | '~' => single .tilde
  | '\n' => single .newline
  | c =>
    if Text.isBlank c then blank
    else if c.isDigit then run .number cs
    else if Text.isSymbolChar c then run .symbol cs
    else fault (.unrecognized c)

end Lexeme

/-- Where scanning ends, and why if it is not the end of the source. -/
structure Scan.Ending where
  pos : Position
  fault : Option ScanFault
deriving DecidableEq, Repr

/-- The tokens of a source and where they end. -/
structure Scan where
  tokens : List Token
  ending : Scan.Ending
deriving DecidableEq, Repr

/-- Scans the characters from position `p` on, the first `taken` of which belong to the token
before. -/
def scanFrom (p : Position) : (taken : Nat) → List Char → Scan
  | _, [] => ⟨[], p, none⟩
  | taken + 1, c :: cs => scanFrom (p.advance c) taken cs
  | 0, c :: cs =>
    match Lexeme.ofChars c cs with
    | .blank => scanFrom (p.advance c) 0 cs
    | .token kind body ahead =>
      let later := scanFrom (p.advance c) body.length cs
      ⟨⟨kind, p, String.ofList (c :: body ++ ahead)⟩ :: later.tokens, later.ending⟩
    | .fault cause => ⟨[], p, some cause⟩

/-- The tokens of `source`. -/
def scan (source : String) : Scan :=
  scanFrom .start 0 source.toList

namespace Scan

/-- The error that ends scanning, if one does. -/
def Ending.error? (e : Ending) : Option SyntaxError :=
  e.fault.map fun cause => ⟨e.pos, .scan cause⟩

/-- All tokens of a source that scans to its end. -/
def complete (s : Scan) : Except SyntaxError (List Token) :=
  match s.ending.error? with
  | some e => .error e
  | none => .ok s.tokens

end Scan

end CljFormat
