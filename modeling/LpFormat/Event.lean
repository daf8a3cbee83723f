import LpFormat.Kind
import LpFormat.Text

/-!
# Events

The rules of the grammar describe a tree by a flat list of events: the start and the finish of each
node, and the tokens between them.
-/

namespace LpFormat

/-- A step in the description of a tree. -/
inductive Event where
  /-- A node begins. -/
  | start (kind : Kind)
  /-- A token of the innermost open node. -/
  | token (kind : Kind) (span : Span)
  /-- The innermost open node ends. -/
  | finish
deriving DecidableEq, Repr

/-- The kind of a token event. -/
def Event.tokenKind? : Event → Option Kind
  | token kind _ => some kind
  | _ => none

end LpFormat
