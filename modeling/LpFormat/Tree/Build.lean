import LpFormat.Event
import LpFormat.Tree

/-!
# Trees from events

Events are replayed with a stack of open nodes. Ids are given out in the order in which nodes and
tokens begin. A node spans from its first child's start to its last child's end; a node without
children sits at the end of the last token before it.

* `Builder`, `Builder.step`, `Builder.run`;
* `Tree.ofEvents`: the tree that events describe.
-/

namespace LpFormat

/-- A node that is not finished. -/
structure OpenNode where
  id : Nat
  kind : Kind
  /-- Where the node sits if it gets no children. -/
  position : Nat
  /-- The children so far, last first. -/
  children : List Node

namespace OpenNode

/-- The span of a node, from its first child to its last. -/
def span (o : OpenNode) : Span :=
  match o.children.getLast?, o.children.head? with
  | some first, some last => ⟨first.span.start, last.span.stop⟩
  | _, _ => .empty o.position

/-- The finished node. -/
def close (o : OpenNode) : Node := ⟨o.id, o.kind, o.span, o.children.reverse⟩

end OpenNode

/-- The state of a replay. -/
structure Builder where
  /-- The next id to give out. -/
  nextId : Nat
  /-- The end of the last token. -/
  lastEnd : Nat
  /-- The open nodes, innermost first. -/
  opened : List OpenNode
  /-- The finished nodes outside all open ones, last first. -/
  roots : List Node

namespace Builder

/-- Before any event, with the first id and the position of what comes. -/
def init (nextId position : Nat) : Builder := ⟨nextId, position, [], []⟩

/-- Adds a finished node to the innermost open one. -/
def add (b : Builder) (n : Node) : Builder :=
  match b.opened with
  | [] => { b with roots := n :: b.roots }
  | o :: os => { b with opened := { o with children := n :: o.children } :: os }

/-- Finishes the innermost open node, if there is one. -/
def finish (b : Builder) : Builder :=
  match b.opened with
  | [] => b
  | o :: os => { b with opened := os }.add o.close

/-- Replays one event. -/
def step (b : Builder) : Event → Builder
  | .start kind =>
    { b with nextId := b.nextId + 1, opened := ⟨b.nextId, kind, b.lastEnd, []⟩ :: b.opened }
  | .token kind span =>
    { b with nextId := b.nextId + 1, lastEnd := span.stop }.add ⟨b.nextId, kind, span, []⟩
  | .finish => b.finish

/-- Replays events. -/
def run (b : Builder) (events : List Event) : Builder := events.foldl step b

/-- Finishes all open nodes. -/
def finishAll (b : Builder) : Builder := b.opened.foldl (fun b _ => b.finish) b

end Builder

/-- The nodes that events describe, in order, and the next id. -/
def Node.ofEvents (nextId position : Nat) (events : List Event) : List Node × Nat :=
  let b := ((Builder.init nextId position).run events).finishAll
  (b.roots.reverse, b.nextId)

/-- The tree that events describe. -/
def Tree.ofEvents (text : Text) (events : List Event) : Tree :=
  let (roots, nextId) := Node.ofEvents 0 0 events
  ⟨text, roots.head?.getD ⟨0, .document, .empty 0, []⟩, nextId, 0⟩

end LpFormat
