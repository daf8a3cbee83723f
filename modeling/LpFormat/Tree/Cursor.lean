import LpFormat.Tree

/-!
# Moving around in a tree

A `Cursor` is a node together with the way back to the root: for every level the node above, and
the siblings on both sides.

* `Crumb`, `Crumb.plug`, `Cursor`, `Cursor.root`;
* `Cursor.parent?`, `Cursor.children`, `Cursor.childAt?`, `Cursor.next?`, `Cursor.prev?`,
  `Cursor.ancestors`, `Cursor.descendants`;
* `Cursor.leavesBefore`, `Cursor.leavesAfter`, `Cursor.nextLeaf?`, `Cursor.prevLeaf?`;
* `Cursor.cover`: the deepest node around a span;
* `Cursor.splice`: a tree with another node in this place, everything after it moved.
-/

namespace LpFormat

/-- One level of the way to the root. -/
structure Crumb where
  /-- Id, kind and span of the node above. -/
  id : Nat
  kind : Kind
  span : Span
  /-- The siblings before, nearest first. -/
  before : List Node
  /-- The siblings after. -/
  after : List Node
deriving Inhabited

namespace Crumb

/-- The node above, with a node in the place between the siblings. -/
def plug (k : Crumb) (n : Node) : Node := ⟨k.id, k.kind, k.span, k.before.reverse ++ n :: k.after⟩

/-- The level after the node in the middle grew: the node above is longer, siblings after it are
moved, siblings before it stay. -/
def grow (delta : Int) (k : Crumb) : Crumb :=
  { k with span := k.span.stretch delta, after := Node.shiftAll delta k.after }

/-- The ids of the nodes that `grow` changes. -/
def grownIds (k : Crumb) : List Nat := k.id :: (Node.descendantsAll k.after).map (·.id)

end Crumb

/-- A node in its place in a tree. -/
structure Cursor where
  focus : Node
  /-- The way to the root, nearest level first. -/
  path : List Crumb
deriving Inhabited

namespace Cursor

/-- The whole tree. -/
def root (c : Cursor) : Node := c.path.foldl (fun n k => k.plug n) c.focus

/-! ## Relatives -/

/-- The node above. -/
def parent? (c : Cursor) : Option Cursor :=
  match c.path with
  | [] => none
  | k :: ks => some ⟨k.plug c.focus, ks⟩

/-- The sibling right after. -/
def next? (c : Cursor) : Option Cursor :=
  match c.path with
  | { id, kind, span, before, after := n :: after } :: ks =>
    some ⟨n, ⟨id, kind, span, c.focus :: before, after⟩ :: ks⟩
  | _ => none

/-- The sibling right before. -/
def prev? (c : Cursor) : Option Cursor :=
  match c.path with
  | { id, kind, span, before := n :: before, after } :: ks =>
    some ⟨n, ⟨id, kind, span, before, c.focus :: after⟩ :: ks⟩
  | _ => none

/-- The siblings after. -/
def following (c : Cursor) : List Node :=
  match c.path with
  | [] => []
  | k :: _ => k.after

/-- Some nodes that follow others under one node, each in its place. -/
def placeAll (id : Nat) (kind : Kind) (span : Span) (path : List Crumb) :
    List Node → List Node → List Cursor
  | _, [] => []
  | before, n :: ns =>
    ⟨n, ⟨id, kind, span, before, ns⟩ :: path⟩ :: placeAll id kind span path (n :: before) ns

/-- The children, each in its place. -/
def children (c : Cursor) : List Cursor :=
  placeAll c.focus.id c.focus.kind c.focus.span c.path [] c.focus.children

/-- The child with a given index. -/
def childAt? (c : Cursor) (i : Nat) : Option Cursor := c.children[i]?

/-- A node and all above it, from itself up to the root. -/
def ancestorsFrom (n : Node) : List Crumb → List Cursor
  | [] => [⟨n, []⟩]
  | k :: ks => ⟨n, k :: ks⟩ :: ancestorsFrom (k.plug n) ks

/-- The node and all above it, from itself up to the root. -/
def ancestors (c : Cursor) : List Cursor := ancestorsFrom c.focus c.path

mutual

/-- A node at the end of a path and all below it, each in its place. -/
def descendantsFrom (path : List Crumb) : Node → List Cursor
  | ⟨id, kind, span, children⟩ =>
    ⟨⟨id, kind, span, children⟩, path⟩ :: descendantsFromAll id kind span path [] children

/-- Some nodes that follow others under one node and all below them, each in its place. -/
def descendantsFromAll (id : Nat) (kind : Kind) (span : Span) (path : List Crumb) :
    List Node → List Node → List Cursor
  | _, [] => []
  | before, n :: ns =>
    descendantsFrom (⟨id, kind, span, before, ns⟩ :: path) n ++
      descendantsFromAll id kind span path (n :: before) ns

end

/-- The node and all below it, parents before children. -/
def descendants (c : Cursor) : List Cursor := descendantsFrom c.path c.focus

/-! ## Neighbouring leaves -/

/-- The leaves before the node, nearest first. -/
def leavesBefore (c : Cursor) : List Node :=
  c.path.flatMap fun k => k.before.flatMap fun n => n.leaves.reverse

/-- The leaves after the node, nearest first. -/
def leavesAfter (c : Cursor) : List Node := c.path.flatMap fun k => k.after.flatMap Node.leaves

/-- The leaf right after the node: climb until a later sibling has a first leaf. -/
def nextLeaf? (c : Cursor) : Option Node :=
  c.path.findSome? fun k => k.after.findSome? Node.firstLeaf?

/-- The leaf right before the node: climb until an earlier sibling has a last leaf. -/
def prevLeaf? (c : Cursor) : Option Node :=
  c.path.findSome? fun k => k.before.findSome? Node.lastLeaf?

/-! ## The deepest node around a span -/

mutual

/-- Goes down from a node to the first child around a span, as long as there is one. -/
def coverFrom (target : Span) (path : List Crumb) : Node → Cursor
  | ⟨id, kind, span, children⟩ =>
    match coverFromAll target id kind span path [] children with
    | some c => c
    | none => ⟨⟨id, kind, span, children⟩, path⟩

/-- Goes down from the first of some nodes that lies around a span. -/
def coverFromAll (target : Span) (id : Nat) (kind : Kind) (span : Span) (path : List Crumb) :
    List Node → List Node → Option Cursor
  | _, [] => none
  | before, n :: ns =>
    if n.span.contains target then
      some (coverFrom target (⟨id, kind, span, before, ns⟩ :: path) n)
    else coverFromAll target id kind span path (n :: before) ns

end

/-! ## Changing a tree in one place -/

/-- The root of the tree with another node in this place, which is longer by `delta`. -/
def splice (c : Cursor) (n : Node) (delta : Int) : Node :=
  (c.path.map (Crumb.grow delta)).foldl (fun n k => k.plug n) n

/-- The ids of the nodes outside this place whose spans `splice` changes. -/
def splicedIds (c : Cursor) (delta : Int) : List Nat :=
  if delta = 0 then [] else c.path.flatMap Crumb.grownIds

end Cursor

namespace Tree

/-- The root in its place. -/
def cursor (t : Tree) : Cursor := ⟨t.root, []⟩

/-- All nodes of a tree, each in its place. -/
def cursors (t : Tree) : List Cursor := t.cursor.descendants

/-- The deepest node around a span. Where an empty span sits between two nodes, the left one is
taken; a span that reaches out of the text leaves the root. -/
def cover (t : Tree) (span : Span) : Cursor := Cursor.coverFrom span [] t.root

end Tree

end LpFormat
