import LpFormat.Kind
import LpFormat.Text

/-!
# Trees

A document is a tree whose leaves are tokens. Every node has a number, its id, that stays with it
when the tree is changed by an edit; ids of nodes that an edit removed are not given out again.

* `Node`, `Node.size`, `Node.descendants`, `Node.outline`, `Node.leaves`, `Node.shift`;
* `Node.firstLeaf?`, `Node.lastLeaf?`;
* `Tree`: a root with its text, how many ids were given out and how many of them are dead;
* `Tree.same`: equality of texts and of the flat lists of kinds, spans and numbers of children.
-/

namespace LpFormat

/-- A token or a node with its children. -/
structure Node where
  id : Nat
  kind : Kind
  span : Span
  children : List Node
deriving Repr, Inhabited

namespace Node

mutual

/-- The number of nodes and tokens below and including a node. -/
def size : Node → Nat
  | ⟨_, _, _, children⟩ => 1 + sizeAll children

/-- The number of nodes and tokens below and including some nodes. -/
def sizeAll : List Node → Nat
  | [] => 0
  | n :: ns => n.size + sizeAll ns

end

mutual

/-- A node and all below it, parents before children and in the order of the text. -/
def descendants : Node → List Node
  | ⟨id, kind, span, children⟩ => ⟨id, kind, span, children⟩ :: descendantsAll children

/-- Some nodes and all below them. -/
def descendantsAll : List Node → List Node
  | [] => []
  | n :: ns => n.descendants ++ descendantsAll ns

end

mutual

/-- A node and all below it in the same order, with depths that start at a given one. -/
def outline (depth : Nat) : Node → List (Nat × Node)
  | ⟨id, kind, span, children⟩ =>
    (depth, ⟨id, kind, span, children⟩) :: outlineAll (depth + 1) children

/-- Some nodes and all below them, with depths. -/
def outlineAll (depth : Nat) : List Node → List (Nat × Node)
  | [] => []
  | n :: ns => n.outline depth ++ outlineAll depth ns

end

mutual

/-- Moves the spans of a node and of all below it. -/
def shift (delta : Int) : Node → Node
  | ⟨id, kind, span, children⟩ => ⟨id, kind, span.shift delta, shiftAll delta children⟩

/-- Moves the spans of some nodes and of all below them. -/
def shiftAll (delta : Int) : List Node → List Node
  | [] => []
  | n :: ns => n.shift delta :: shiftAll delta ns

end

mutual

/-- The token reached by going to the first child as long as there is one. -/
def firstLeaf? : Node → Option Node
  | ⟨id, kind, span, children⟩ =>
    if kind.isToken then some ⟨id, kind, span, children⟩ else firstLeafOfFirst? children

/-- The first leaf of the first of some nodes. -/
def firstLeafOfFirst? : List Node → Option Node
  | [] => none
  | n :: _ => n.firstLeaf?

end

mutual

/-- The token reached by going to the last child as long as there is one. -/
def lastLeaf? : Node → Option Node
  | ⟨id, kind, span, children⟩ =>
    if kind.isToken then some ⟨id, kind, span, children⟩ else lastLeafOfLast? children

/-- The last leaf of the last of some nodes. -/
def lastLeafOfLast? : List Node → Option Node
  | [] => none
  | [n] => n.lastLeaf?
  | _ :: n :: ns => lastLeafOfLast? (n :: ns)

end

/-- The tokens of a node in the order of the text. -/
def leaves (n : Node) : List Node := n.descendants.filter (·.kind.isToken)

/-- The first child of a given kind. -/
def childOfKind? (n : Node) (kind : Kind) : Option Node := n.children.find? (·.kind == kind)

/-- The written form of a node, as in `TERM@0..3`. -/
def render (n : Node) : String := n.kind.name ++ "@" ++ n.span.render

end Node

/-- A tree over a text. -/
structure Tree where
  text : Text
  root : Node
  /-- How many ids were given out; they are the numbers below this one. -/
  allocated : Nat
  /-- How many of them belong to nodes that are no longer in the tree. -/
  dead : Nat
deriving Repr, Inhabited

namespace Tree

/-- The number of nodes and tokens. -/
def nodeCount (t : Tree) : Nat := t.allocated - t.dead

/-- The text that a node covers. -/
def textOf (t : Tree) (n : Node) : Text := t.text.slice n.span

/-- Kind, span and number of children of every node, in order. -/
def shapes (t : Tree) : List (Kind × Span × Nat) :=
  t.root.descendants.map fun n => (n.kind, n.span, n.children.length)

/-- Whether two trees have the same text and the same flat list of shapes. Ids do not matter. -/
def same (a b : Tree) : Bool := a.text == b.text && a.shapes == b.shapes

end Tree

end LpFormat
