import LpFormat.Binary64
import LpFormat.Config
import LpFormat.Config.Path
import LpFormat.Config.Toml.Document
import LpFormat.Config.Toml.Scalar
import LpFormat.Config.Toml.Value
import LpFormat.Diagnostic
import LpFormat.Edit
import LpFormat.Event
import LpFormat.Expected
import LpFormat.Grammar
import LpFormat.Kind
import LpFormat.Kind.Set
import LpFormat.Log
import LpFormat.Model.Basic
import LpFormat.Model.Bound
import LpFormat.Model.Document
import LpFormat.Model.Linear
import LpFormat.Options
import LpFormat.Parse
import LpFormat.Parsing.Document
import LpFormat.Parsing.Linear
import LpFormat.Parsing.Monad
import LpFormat.Parsing.Statement
import LpFormat.Reparse
import LpFormat.Text
import LpFormat.Text.Alphanumeric
import LpFormat.Text.Extending
import LpFormat.Text.Quoted
import LpFormat.Text.Ranges
import LpFormat.Text.Unprinted
import LpFormat.Token
import LpFormat.Token.Chars
import LpFormat.Token.Lexer
import LpFormat.Token.Number
import LpFormat.Tree
import LpFormat.Tree.Build
import LpFormat.Tree.Cursor
import LpFormat.Tree.Listing
import LpFormat.Tree.Walk
import LpFormat.Proofs.Kind
import LpFormat.Proofs.Text.Bytes
import LpFormat.Proofs.Text.Scan
import LpFormat.Proofs.Config.Toml
import LpFormat.Proofs.Config.Saved
import LpFormat.Proofs.Config.Path
import LpFormat.Proofs.Token.Lookahead
import LpFormat.Proofs.Token.Reading
import LpFormat.Proofs.Parsing.Input
import LpFormat.Proofs.Token.Stops
import LpFormat.Proofs.Tree.Skeleton
import LpFormat.Proofs.Tree.Splice
import LpFormat.Proofs.Tree.Replay
import LpFormat.Proofs.Tree.Build
import LpFormat.Proofs.Reparse.Prefix
import LpFormat.Proofs.Reparse.Statement
import LpFormat.Proofs.Reparse.Token
import LpFormat.Proofs.Reparse.Outer
import LpFormat.Proofs.Reparse.History
import LpFormat.Proofs.Reparse.Accounting
import LpFormat.Proofs.Reparse.Frame
import LpFormat.Proofs.Reparse.Invariant
import LpFormat.Proofs.Reparse.Place
import LpFormat.Proofs.Parse.Leaves
import LpFormat.Proofs.Parse.Arrange
import LpFormat.Proofs.Parsing.Spec
import LpFormat.Proofs.Parsing.Replace
import LpFormat.Proofs.Parsing.Layout
import LpFormat.Proofs.Parsing.Document
import LpFormat.Proofs.Parsing.Operand
import LpFormat.Proofs.Parsing.Linear
import LpFormat.Proofs.Parsing.Lines
import LpFormat.Proofs.Parsing.Parallel
import LpFormat.Proofs.Parsing.Trace
import LpFormat.Proofs.Parsing.Statement
import LpFormat.Proofs.Parsing.Lead
import LpFormat.Proofs.Parsing.Script
import LpFormat.Proofs.Parsing.Bare
import LpFormat.Proofs.Tree.Prune
import LpFormat.Proofs.Parsing.Schema
import LpFormat.Proofs.Parse.Trivia
import LpFormat.Proofs.Parsing.Shape
import LpFormat.Proofs.Parsing.Productions
import LpFormat.Proofs.Parsing.Sections
import LpFormat.Proofs.Parse.Schema
import LpFormat.Proofs.Parse.Faults
import LpFormat.Proofs.Parsing.Accept
import LpFormat.Proofs.Parsing.Complete
import LpFormat.Proofs.Parse.Grammar
import LpFormat.Proofs.Checked.Basic
import LpFormat.Proofs.Checked.Reading
import LpFormat.Proofs.Checked.Machine
import LpFormat.Proofs.Checked.Arena
import LpFormat.Proofs.Checked.Change
import LpFormat.Proofs.Checked.Relex
import LpFormat.Proofs.Checked.Reparse
import LpFormat.Proofs.Checked.History
import LpFormat.Proofs.Token.Rules
import LpFormat.Proofs.Token.Gapless
import LpFormat.Proofs.Token.Numeral
import LpFormat.Proofs.Parse.Nodes
import LpFormat.Proofs.Parse.Statements
import LpFormat.Proofs.Tree.Cursors
import LpFormat.Proofs.Model.Linear
import LpFormat.Proofs.Model.Sos
import LpFormat.Proofs.Model.Bound
import LpFormat.Proofs.Token.Settled
import LpFormat.Proofs.Token.Cut
import LpFormat.Proofs.Parsing.Cut
import LpFormat.Proofs.Parsing.Alone
import LpFormat.Proofs.Parse.Excerpt
import LpFormat.Proofs.Parse.Alone
import LpFormat.Proofs.Token.Keywords
import LpFormat.Proofs.Token.Munch
import LpFormat.Proofs.Token.Resume
import LpFormat.Proofs.Model.Literal
import LpFormat.Proofs.Parsing.Trim
import LpFormat.Proofs.Reparse.Trim
import LpFormat.Proofs.Tree.Cover
import LpFormat.Proofs.Tree.Walk
import LpFormat.Proofs.Tree.Alike
import LpFormat.Proofs.Token.Sealed
import LpFormat.Proofs.Tree.Neighbours
import LpFormat.Proofs.Tree.Account
import LpFormat.Proofs.Checked.Neighbours
import LpFormat.Proofs.Checked.Replay
import LpFormat.Proofs.Checked.Sound
import LpFormat.Proofs.Checked.Walk
