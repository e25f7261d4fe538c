/-
CljFormat.Form.Reader — from tokens to forms.

The reader keeps a stack of the brackets and sigils that are still open, and takes one token at a
time (`State.step`): an atom is delivered to the innermost of them, a closing delimiter completes
it, and a sigil is complete as soon as a form is delivered to it. So the state after a piece of
source is all that the rest of the source can depend on.

## What is kept

Comments and line breaks are kept only on request (`Options.nonSemantic`), and two options drop
`(comment …)` forms and discarded forms. The choice is made where a form is delivered to a sequence
or to the roots. Under a sigil there is no choice: comments and line breaks are passed over, any
other form is taken.

## Identities

Forms are numbered from zero in the order in which they are complete, so the parts of a form have
smaller numbers than the form, and a dropped form still takes a number.

## Errors

The first token that fits nowhere ends reading. At the end of the source an open bracket is reported
at its opening delimiter, and an open sigil or dispatch at the end.
-/
import CljFormat.Form
import CljFormat.Form.CharLiteral
import CljFormat.Token.Scan

namespace CljFormat.Reader

/-- Which forms to keep. -/
structure Options where
  /-- Keep comments and line breaks. -/
  nonSemantic : Bool := false
  /-- Drop lists whose first item is the symbol `comment`. -/
  ignoreCommentForms : Bool := false
  /-- Drop forms behind `#_`. -/
  ignoreReaderDiscard : Bool := false
deriving DecidableEq, Repr

/-- Keep everything. -/
def Options.everything : Options :=
  { nonSemantic := true }

/-- Whether a sequence or the roots take a form that is delivered to them. -/
def Options.keeps {α : Type} (options : Options) (f : Form α) : Bool :=
  !(options.ignoreCommentForms && f.isCallOf "comment") &&
    !(options.ignoreReaderDiscard &&
      match f.shape with
      | .prefixed .readerDiscard _ => true
      | _ => false) &&
    (options.nonSemantic || f.isSemantic)

/-- A bracket or sigil that is still open. -/
inductive Frame
  /-- A bracket: where its form starts, where its opening delimiter stands, and the forms
  delivered so far, latest first. -/
  | bracket (b : Bracket) (pos opened : Position) (items : List (Form Label))
  | sigil (s : Sigil) (pos : Position)

/-- What the next token has to be. -/
inductive Expecting
  /-- The start of a form, or the delimiter that closes the innermost bracket. -/
  | form
  /-- The delimiter that opens the bracket `b` of a dispatch at `pos`. -/
  | opener (b : Bracket) (pos : Position)
  /-- The string behind `#"` at `pos`. -/
  | regex (pos : Position)
  /-- The name behind `#'` at `pos`. -/
  | varName (pos : Position)
  /-- The name behind the `#` of a tag at `pos`. -/
  | tagName (pos : Position)
  /-- The namespace behind `#:` at `pos`. -/
  | namespaceName (pos : Position)
  /-- What is behind the `~` at `pos`: an `@` makes it another sigil. -/
  | unquoted (pos : Position)
deriving DecidableEq, Repr

/-- The state of reading between two tokens. -/
structure State where
  /-- The brackets and sigils that are open, innermost first. -/
  enclosing : List Frame
  expecting : Expecting
  /-- The complete forms at top level, latest first. -/
  roots : List (Form Label)
  /-- The identity of the next form. -/
  next : Nat

/-- The state before the first token. -/
def State.start : State :=
  ⟨[], .form, [], 0⟩

/-- The forms of a source and how many identities were given out. -/
structure Document where
  roots : List (Form Label)
  size : Nat

/-- A read error at `pos`. -/
def refuse {α : Type} (pos : Position) (fault : ReadFault) : Except SyntaxError α :=
  .error ⟨pos, .read fault⟩

/-- A token that stands where its kind cannot. -/
def unexpected {α : Type} (t : Token) : Except SyntaxError α :=
  refuse t.pos (.unexpectedToken t.text)

/-- A text without its first and last characters. -/
def unquote (text : String) : String :=
  String.ofList text.toList.tail.dropLast

/-- The atom a symbol token stands for. -/
def atomOfSymbol (text : String) : Atom :=
  if text = "nil" then .nil
  else if text = "true" then .bool true
  else if text = "false" then .bool false
  else .symbol text

/-- The delimiter that closes a bracket. -/
def closerOf : Bracket → Delimiter
  | .vector => .bracket
  | .map _ | .set => .brace
  | .fnLiteral | .list | .readerCond | .readerCondSplice => .paren

/-- Hands the complete form `f` to the innermost of `frames`, or to `roots` if nothing is open. -/
def deliver (options : Options) (roots : List (Form Label)) (next : Nat) (f : Form Label) :
    List Frame → State
  | [] => ⟨[], .form, if options.keeps f then f :: roots else roots, next⟩
  | .bracket b pos opened items :: outer =>
    ⟨.bracket b pos opened (if options.keeps f then f :: items else items) :: outer, .form, roots,
      next⟩
  | .sigil s pos :: outer =>
    if f.isSemantic then deliver options roots (next + 1) (.prefixed ⟨next, pos⟩ s f) outer
    else ⟨.sigil s pos :: outer, .form, roots, next⟩

namespace State

/-- Delivers an atom at `pos`. -/
def atom (options : Options) (σ : State) (pos : Position) (x : Atom) : State :=
  deliver options σ.roots (σ.next + 1) (.atom ⟨σ.next, pos⟩ x) σ.enclosing

/-- Opens a frame. -/
def push (σ : State) (frame : Frame) : State :=
  { σ with enclosing := frame :: σ.enclosing, expecting := .form }

/-- Waits for a particular token. -/
def expect (σ : State) (e : Expecting) : State :=
  { σ with expecting := e }

/-- Whether a function literal is open. -/
def insideFnLiteral (σ : State) : Bool :=
  σ.enclosing.any fun
    | .bracket .fnLiteral _ _ _ => true
    | _ => false

/-- Completes the innermost bracket at the closing token `t`. A map has to pair up. -/
def close (options : Options) (σ : State) (d : Delimiter) (t : Token) :
    Except SyntaxError State :=
  match σ.enclosing with
  | .bracket b pos _ items :: outer =>
    if closerOf b ≠ d then unexpected t
    else
      let items := items.reverse
      let isMap := match b with
        | .map _ => true
        | _ => false
      if isMap && (items.countP Form.isPaired) % 2 = 1 then refuse pos .oddMap
      else .ok (deliver options σ.roots (σ.next + 1) (.seq ⟨σ.next, pos⟩ b items) outer)
  | _ => unexpected t

/-- Takes a dispatch token at `pos`. -/
def dispatch (σ : State) (pos : Position) : Dispatch → Except SyntaxError State
  | .fnLiteral =>
    if σ.insideFnLiteral then refuse pos .nestedFnLiteral
    else .ok (σ.expect (.opener .fnLiteral pos))
  | .set => .ok (σ.expect (.opener .set pos))
  | .readerCond => .ok (σ.expect (.opener .readerCond pos))
  | .readerCondSplice => .ok (σ.expect (.opener .readerCondSplice pos))
  | .namespacedMap => .ok (σ.expect (.namespaceName pos))
  | .regex => .ok (σ.expect (.regex pos))
  | .varQuote => .ok (σ.expect (.varName pos))
  | .discard => .ok (σ.push (.sigil .readerDiscard pos))
  | .eval => .ok (σ.push (.sigil .readerEval pos))
  | .metadata => .ok (σ.push (.sigil .metadata pos))

/-- Takes a token where a form may start. -/
def form (options : Options) (σ : State) (t : Token) : Except SyntaxError State :=
  match t.kind with
  | .symbol => .ok (σ.atom options t.pos (atomOfSymbol t.text))
  | .charLiteral =>
    match CharLiteral.decode t.text.toList.tail with
    | .ok value => .ok (σ.atom options t.pos (.character value t.text))
    | .error fault => refuse t.pos (.charLiteral fault)
  | .comment => .ok (σ.atom options t.pos (.comment t.text))
  | .keyword => .ok (σ.atom options t.pos (.keyword t.text))
  | .newline => .ok (σ.atom options t.pos .newline)
  | .number => .ok (σ.atom options t.pos (.number t.text))
  | .string => .ok (σ.atom options t.pos (.string (unquote t.text)))
  | .opening .paren => .ok (σ.push (.bracket .list t.pos t.pos []))
  | .opening .bracket => .ok (σ.push (.bracket .vector t.pos t.pos []))
  | .opening .brace => .ok (σ.push (.bracket (.map none) t.pos t.pos []))
  | .closing d => σ.close options d t
  | .atSign => .ok (σ.push (.sigil .deref t.pos))
  | .apostrophe => .ok (σ.push (.sigil .quote t.pos))
  | .backtick => .ok (σ.push (.sigil .syntaxQuote t.pos))
  | .circumflex => .ok (σ.push (.sigil .metadata t.pos))
  | .tilde => .ok (σ.expect (.unquoted t.pos))
  | .octothorpe => .ok (σ.expect (.tagName t.pos))
  | .dispatch d => σ.dispatch t.pos d

/-- Takes the token behind a dispatch that opens the bracket `b` at `pos`. A reader conditional and
a namespaced map name what they want; an open set or function literal is reported at its `#`. -/
def opener (σ : State) (b : Bracket) (pos : Position) (t : Token) : Except SyntaxError State :=
  if t.kind = .opening (closerOf b) then
    let opened := match b with
      | .fnLiteral | .set => pos
      | _ => t.pos
    .ok (σ.push (.bracket b pos opened []))
  else
    match b with
    | .readerCond | .readerCondSplice => refuse t.pos .readerCondBody
    | .map _ => refuse t.pos .namespacedMapBody
    | _ => unexpected t

/-- Takes one token. -/
def step (options : Options) (σ : State) (t : Token) : Except SyntaxError State :=
  match σ.expecting with
  | .form => σ.form options t
  | .opener b pos => σ.opener b pos t
  | .regex pos =>
    if t.kind = .string then .ok (σ.atom options pos (.regex (unquote t.text))) else unexpected t
  | .varName pos =>
    if t.kind = .symbol then .ok (σ.atom options pos (.varQuote t.text)) else unexpected t
  | .tagName pos =>
    if t.kind = .symbol then .ok (σ.atom options pos (.tag t.text)) else unexpected t
  | .namespaceName pos =>
    if t.kind = .keyword then .ok (σ.expect (.opener (.map (some t.text)) pos)) else unexpected t
  | .unquoted pos =>
    if t.kind = .atSign then .ok (σ.push (.sigil .unquoteSplice pos))
    else (σ.push (.sigil .unquote pos)).form options t

/-- Ends reading at the end `pos` of the source. -/
def finish (σ : State) (pos : Position) : Except SyntaxError Document :=
  match σ.expecting, σ.enclosing with
  | .form, [] => .ok ⟨σ.roots.reverse, σ.next⟩
  | .form, .bracket _ _ opened _ :: _ => refuse opened .unexpectedEnd
  | _, _ => refuse pos .unexpectedEnd

end State

/-- The forms of a scanned source. A scan fault is reported only once the tokens before it are
read. -/
def ofScan (options : Options) (s : Scan) : Except SyntaxError Document := do
  let σ ← s.tokens.foldlM (State.step options) State.start
  match s.ending.error? with
  | some e => .error e
  | none => σ.finish s.ending.pos

/-- The forms of `source`. -/
def read (options : Options) (source : String) : Except SyntaxError Document :=
  ofScan options (scan source)

end CljFormat.Reader
