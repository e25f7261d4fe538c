import CljFormat.Main
import CljFormat.Token.Stream
import CljFormat.Proofs.Comments
import CljFormat.Proofs.Idempotence
import CljFormat.Proofs.Reader.Code
import CljFormat.Tree.Rearrange
import CljFormat.Proofs.Tree.Holds
import CljFormat.Proofs.Tree.Edit
import CljFormat.Proofs.Tree.Rearrange
import CljFormat.Proofs.Failure
import CljFormat.Proofs.Tree.Frame
import CljFormat.Proofs.Token.Lossless
import CljFormat.Proofs.Reader.Derivation
import CljFormat.Proofs.Reader.Built
import CljFormat.Proofs.Token.Join
import CljFormat.Proofs.Reader.CodeOnly
import CljFormat.Proofs.Tree.Suppressed
import CljFormat.Proofs.Tree.WellFormed
import CljFormat.Proofs.Reader.Join
import CljFormat.Proofs.Layout.Scope
import CljFormat.Proofs.Layout.Twin
import CljFormat.Proofs.Independence
import CljFormat.Proofs.Layout.Columns
import CljFormat.Proofs.Values
import CljFormat.Proofs.Disk
import CljFormat.Proofs.Command.Batch
import CljFormat.Proofs.Docstrings
import CljFormat.Proofs.Tags
import CljFormat.Proofs.FnLiterals
import CljFormat.Proofs.Tree.Tidy
import CljFormat.Proofs.Pairing
import CljFormat.Proofs.Reader.CommentForms
import CljFormat.Proofs.Layout.Receivers
import CljFormat.Proofs.Layout.ShortNames
import CljFormat.Proofs.LineDiff
import CljFormat.Proofs.Reader.Refusal
import CljFormat.Proofs.Reader.Places
import CljFormat.Proofs.VisibleChanges
import CljFormat.Proofs.Layout.IndentChar
import CljFormat.Proofs.Layout.Trailing
import CljFormat.Proofs.Reader.Written
import CljFormat.Proofs.DotConfig
import CljFormat.Proofs.Token.Faults
import CljFormat.Proofs.Path
import CljFormat.Proofs.Command.Walk
import CljFormat.Proofs.Tree.History
import CljFormat.Proofs.Reader.Trail
import CljFormat.Proofs.Tree.Closed
import CljFormat.Proofs.Tree.Order
import CljFormat.Proofs.Form.CharLiteral
