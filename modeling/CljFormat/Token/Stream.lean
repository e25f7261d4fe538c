/-
CljFormat.Token.Stream — tokens one at a time.

A stream reads its source as far as the next token, each time that it is asked for one, and yields
the ending of the scan when there are no more. Two ways of asking differ once it has done so: `pull`
answers with the ending again, however often, and `next?` with nothing.

Between two answers a stream keeps the characters that no token has taken, and what it is to read
next. Behind a `#:` that is a keyword, whose colon the `#:` has shown and left.
-/
import CljFormat.Token.Scan

namespace CljFormat

/-- One answer of a token stream. -/
inductive Signal
  | token (t : Token)
  | ending (e : Scan.Ending)
deriving DecidableEq, Repr

namespace Signal

/-- The name of what the stream answers: a token's kind, or how the scan ends. -/
def kindName : Signal → String
  | token t => t.kind.name
  | ending e => if e.fault.isSome then "error" else "eof"

/-- Where a token starts, or where the scan ends. -/
def pos : Signal → Position
  | token t => t.pos
  | ending e => e.pos

/-- A token's text, or the wording of the fault that ends the scan. -/
def text : Signal → String
  | token t => t.text
  | ending e => (e.fault.map ScanFault.message).getD ""

/-- Whether the text says more than the kind. -/
def hasText : Signal → Bool
  | token t => t.kind.hasText
  | ending e => e.fault.isSome

/-- A one-line account of the answer, for the source called `name`. -/
def describe (name : String) (s : Signal) : String :=
  let place := s!"<{s.kindName}@{s.pos.describe name}>"
  if s.hasText then place ++ "(" ++ Text.quoted s.text ++ ")" else place

end Signal

/-- Every answer of the stream of a scan, in order. -/
def Scan.signals (s : Scan) : List Signal :=
  s.tokens.map .token ++ [.ending s.ending]

namespace TokenStream

/-- What a stream is to read. -/
inductive Mode
  /-- Whatever token comes next. -/
  | any
  /-- The keyword behind a `#:`. -/
  | keyword
  /-- Nothing, since the scan has ended. -/
  | ended (ending : Scan.Ending)
deriving DecidableEq, Repr

/-- What is to be read behind a token. -/
def Mode.behind (kind : Token.Kind) : Mode :=
  if kind = .dispatch .namespacedMap then .keyword else .any

end TokenStream

/-- A scan that goes on when it is asked to. -/
structure TokenStream where
  /-- Where the characters to come start. -/
  pos : Position
  /-- The characters that no token has taken. -/
  rest : List Char
  mode : TokenStream.Mode
deriving DecidableEq, Repr

namespace TokenStream

/-- The stream at the start of `source`. -/
def ofSource (source : String) : TokenStream :=
  ⟨.start, source.toList, .any⟩

/-- The stream that has taken `n` of the characters `cs`, which start at `p`. -/
def taking (n : Nat) (p : Position) (cs : List Char) (mode : Mode) : TokenStream :=
  ⟨(cs.take n).foldl Position.advance p, cs.drop n, mode⟩

/-- Ends the scan in front of the characters `cs`, which start at `p`. -/
def finish (p : Position) (cs : List Char) (fault : Option ScanFault) : Signal × TokenStream :=
  (.ending ⟨p, fault⟩, ⟨p, cs, .ended ⟨p, fault⟩⟩)

/-- Reads the next token of the characters that start at `p`. -/
def readAny (p : Position) : List Char → Signal × TokenStream
  | [] => finish p [] none
  | c :: cs =>
    match Lexeme.ofChars c cs with
    | .blank => readAny (p.advance c) cs
    | .token kind body ahead =>
      (.token ⟨kind, p, String.ofList (c :: body ++ ahead)⟩,
        taking body.length (p.advance c) cs (.behind kind))
    | .fault cause => finish p (c :: cs) (some cause)

/-- Reads a keyword. Its first character is not looked at: it is the colon that was shown. -/
def readKeyword (p : Position) (cs : List Char) : Signal × TokenStream :=
  let n := (cs.tail.takeWhile Text.isSymbolChar).length + 1
  (.token ⟨.keyword, p, String.ofList (cs.take n)⟩, taking n p cs .any)

/-- The next answer; the ending is repeated for ever. -/
def pull (s : TokenStream) : Signal × TokenStream :=
  match s.mode with
  | .any => readAny s.pos s.rest
  | .keyword => readKeyword s.pos s.rest
  | .ended ending => (.ending ending, s)

/-- The next answer, or nothing once the ending has been yielded. -/
def next? (s : TokenStream) : Option Signal × TokenStream :=
  match s.mode with
  | .ended _ => (none, s)
  | _ =>
    let (answer, rest) := s.pull
    (some answer, rest)

end TokenStream

end CljFormat
