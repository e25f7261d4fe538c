/-
CljFormat.SyntaxError — why a source text is refused.

Scanning and reading each have their own causes, and an error is one cause at one place. The
wording of a cause is `SyntaxError.detail`; `SyntaxError.message` puts the stage and the place in
front of it.
-/
import CljFormat.Position
import CljFormat.Text.Quoted

namespace CljFormat

/-- Why no token can be scanned. -/
inductive ScanFault
  /-- A string runs to the end of the source. -/
  | unclosedString
  /-- A backslash is the last character of the source. -/
  | bareBackslash
  /-- `#<` starts the printed form of a value that cannot be read back. -/
  | unreadableDispatch
  /-- No token starts with this character. -/
  | unrecognized (c : Char)
deriving DecidableEq, Repr

/-- Why a character literal names no character. -/
inductive CharLiteralFault
  | character | octal | unicode
deriving DecidableEq, Repr

/-- Why a sequence of tokens is not a sequence of forms. -/
inductive ReadFault
  /-- A token stands where its kind cannot. -/
  | unexpectedToken (text : String)
  /-- The source ends inside a form. -/
  | unexpectedEnd
  | nestedFnLiteral
  /-- A reader conditional is followed by something else than a list. -/
  | readerCondBody
  /-- A map namespace is followed by something else than a map. -/
  | namespacedMapBody
  /-- A map holds a key without a value. -/
  | oddMap
  | charLiteral (fault : CharLiteralFault)
deriving DecidableEq, Repr

/-- The cause of a syntax error. -/
inductive SyntaxFault
  | scan (fault : ScanFault)
  | read (fault : ReadFault)
deriving DecidableEq, Repr

/-- A cause and the place it is about. -/
structure SyntaxError where
  pos : Position
  fault : SyntaxFault
deriving DecidableEq, Repr

/-- The wording of a scan fault. -/
def ScanFault.message : ScanFault → String
  | unclosedString => "reached EOF before string closing quote"
  | bareBackslash => "invalid character literal"
  | unreadableDispatch => "unreadable dispatch macro"
  | unrecognized c => "unrecognized token starting with " ++ String.singleton c

/-- The wording of a fault in a character literal. -/
def CharLiteralFault.message : CharLiteralFault → String
  | character => "invalid character literal"
  | octal => "invalid octal literal"
  | unicode => "invalid unicode literal"

/-- The wording of a read fault. -/
def ReadFault.message : ReadFault → String
  | unexpectedToken text => "unexpected token " ++ Text.quoted text
  | unexpectedEnd => "unexpected EOF"
  | nestedFnLiteral => "cannot nest fn literals"
  | readerCondBody => "reader conditional body must be a list"
  | namespacedMapBody => "namespaced map must have a map"
  | oddMap => "map literal must contain an even number of forms"
  | charLiteral fault => fault.message

namespace SyntaxError

/-- The stage that refused the source. -/
def stage (e : SyntaxError) : String :=
  match e.fault with
  | .scan _ => "lex"
  | .read _ => "parse"

/-- The wording of the cause. -/
def detail (e : SyntaxError) : String :=
  match e.fault with
  | .scan fault => fault.message
  | .read fault => fault.message

/-- The error in the source called `name`. -/
def message (name : String) (e : SyntaxError) : String :=
  s!"{e.stage} error at {e.pos.describe name}: {e.detail}"

end SyntaxError

end CljFormat
