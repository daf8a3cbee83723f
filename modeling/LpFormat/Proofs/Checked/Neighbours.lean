import LpFormat.Proofs.Checked.History
import LpFormat.Proofs.Tree.Neighbours

/-!
# Searching leaves in an arena

In an arena the searches go from cell to cell: down to the first child until there is a token, on to
the next sibling until one has a leaf, and up when no sibling is left. Nothing in the cells says that
this comes to an end, so the rounds are counted. In an arena that stores a tree, as many rounds are
enough as the tree has nodes, and the searches find what they find in the tree.

* `Direction`: the two directions in the order of the text;
* `Arena.child`, `Arena.sibling`; `Arena.edgeLeaf`, `Arena.scan`, `Arena.neighbour`: the searches;
* `Arena.edgeLeaf_eq`, `Arena.scan_eq`, `Arena.neighbour_eq`: what they find, and in how many rounds;
  `Arena.Finds`, **`Arena.finds`**: all four from one node;
* **`leaf_neighbours`**: the searches in the tree of every result.
-/

namespace LpFormat

/-- A direction in the order of the text. -/
inductive Direction where
  | forward
  | backward

namespace Direction

/-- The place next to another. -/
def beside : Direction → Nat → Option Nat
  | forward, i => some (i + 1)
  | backward, 0 => none
  | backward, i + 1 => some i

/-- The place of the child that is met first, for a number of children. -/
def front : Direction → Nat → Option Nat
  | forward, _ => some 0
  | backward, 0 => none
  | backward, count + 1 => some count

/-- The leaf of a node that is met first. -/
def edge? : Direction → Node → Option Node
  | forward => Node.firstLeaf?
  | backward => Node.lastLeaf?

/-- The siblings on one side, nearest first. -/
def side : Direction → Crumb → List Node
  | forward => Crumb.after
  | backward => Crumb.before

/-- The sibling next to a node. -/
def step? : Direction → Cursor → Option Cursor
  | forward => Cursor.next?
  | backward => Cursor.prev?

/-- The leaf next to a node. -/
def neighbour? : Direction → Cursor → Option Node
  | forward => Cursor.nextLeaf?
  | backward => Cursor.prevLeaf?

variable (d : Direction)

theorem neighbour?_eq (c : Cursor) :
    d.neighbour? c = c.path.findSome? fun k => (d.side k).findSome? d.edge? := by
  cases d <;> rfl

/-- The child that is met first, if there is one. -/
theorem edge?_eq (n : Node) : d.edge? n = if n.kind.isToken then some n else
    ((d.front n.children.length).bind fun i => n.children[i]?).bind d.edge? := by
  obtain ⟨id, kind, span, children⟩ := n
  cases d with
  | forward =>
    rw [edge?, Node.firstLeaf?]
    cases children <;> rfl
  | backward =>
    rw [edge?, Node.lastLeaf?]
    rcases List.eq_nil_or_concat children with rfl | ⟨ns, n, rfl⟩
    · rfl
    · simp [Node.lastLeafOfLast?_eq List.getLast?_concat, front]

section Step

variable {c : Cursor} {k : Crumb} {ks : List Crumb}

/-- The sibling next to a node, by its place. -/
theorem beside_index (hpath : c.path = k :: ks) :
    (d.beside c.index).bind (fun i => (k.plug c.focus).children[i]?) =
      (d.step? c).map Cursor.focus := by
  obtain ⟨n, path⟩ := c
  obtain rfl : path = k :: ks := hpath
  obtain ⟨id, kind, span, before, after⟩ := k
  cases d with
  | forward =>
    cases after <;> simp [beside, step?, Cursor.next?, Cursor.index, Crumb.plug]
  | backward =>
    cases before with
    | nil => rfl
    | cons m ms => simp [beside, step?, Cursor.prev?, Cursor.index, Crumb.plug]

/-- Stepping goes through the siblings on one side. -/
theorem step?_cases (hpath : c.path = k :: ks) : d.side k = [] ∧ d.step? c = none ∨
    ∃ e l, d.step? c = some e ∧ e.root = c.root ∧ e.path = l :: ks ∧
      d.side k = e.focus :: d.side l := by
  obtain ⟨n, path⟩ := c
  obtain rfl : path = k :: ks := hpath
  obtain ⟨id, kind, span, before, after⟩ := k
  cases d with
  | forward =>
    cases after with
    | nil => exact .inl ⟨rfl, rfl⟩
    | cons m ms =>
      refine .inr ⟨⟨m, ⟨id, kind, span, n :: before, ms⟩ :: ks⟩, _, rfl, ?_, rfl, rfl⟩
      simp [Cursor.root, Crumb.plug]
  | backward =>
    cases before with
    | nil => exact .inl ⟨rfl, rfl⟩
    | cons m ms =>
      refine .inr ⟨⟨m, ⟨id, kind, span, ms, n :: after⟩ :: ks⟩, _, rfl, ?_, rfl, rfl⟩
      simp [Cursor.root, Crumb.plug]

end Step

/-- The siblings on one side are smaller than what is outside a node. -/
theorem size_side_lt (k : Crumb) (n : Node) :
    Node.sizeAll (d.side k) + n.size < (k.plug n).size := by
  rw [Node.size_eq (k.plug n), Crumb.children_plug, Node.sizeAll_eq_sum, List.map_append, List.sum_append,
    List.map_cons, List.sum_cons, List.map_reverse, List.sum_reverse]
  cases d <;> simp only [side] <;> omega

end Direction

theorem Node.size_pos (n : Node) : 0 < n.size := by
  rw [size_eq]
  omega

/-- No node is larger than the root. -/
theorem Cursor.size_le_root (c : Cursor) : c.focus.size ≤ c.root.size := by
  have hids := congrArg List.length (root_ids c.path c.focus)
  change (c.root.descendants.map Node.id).length = _ at hids
  simp only [List.length_append, Node.length_ids] at hids
  omega

/-- The entries of a node in its place are among those of the root. -/
theorem Cursor.mem_entries_root {c : Cursor} {x : Entry}
    (hx : x ∈ c.focus.entries (c.path.head?.map Crumb.id) c.index) : x ∈ c.root.entries none 0 := by
  rw [entries_root]
  exact List.mem_append_left _ (List.mem_append_right _ hx)

/-- The entries of a child are among those of the children. -/
theorem Node.mem_entriesAll_of_getElem? {parent index i : Nat} {ns : List Node} {n : Node} {x : Entry}
    (hn : ns[i]? = some n) (hx : x ∈ n.entries (some parent) (index + i)) :
    x ∈ entriesAll parent index ns := by
  induction ns generalizing index i with
  | nil => cases hn
  | cons m ms ih =>
    rw [entriesAll, List.mem_append]
    cases i with
    | zero =>
      obtain rfl : m = n := by simpa using hn
      exact .inl hx
    | succ i =>
      refine .inr (ih (by simpa using hn) ?_)
      rwa [Nat.add_assoc, Nat.add_comm 1]

theorem Cursor.root_of_childAt? {c d : Cursor} {i : Nat} (h : c.childAt? i = some d) :
    d.root = c.root := by
  have hparent := (childAt?_eq_some h).2.1
  obtain ⟨n, path⟩ := d
  cases path with
  | nil => cases hparent
  | cons k ks =>
    obtain rfl := Option.some.inj hparent
    exact root_cons n k ks

namespace Arena

/-! ## The searches -/

/-- The child of a node in a given place. -/
def child (a : Arena) (id i : Nat) : Checked (Option Nat) := do
  let cell ← Checked.get a.cells id
  if i < cell.count then
    let child ← Checked.get a.links (cell.start + i)
    return some child
  else return none

/-- The sibling next to a node. -/
def sibling (a : Arena) (d : Direction) (id : Nat) : Checked (Option Nat) := do
  let cell ← Checked.get a.cells id
  match cell.parent, d.beside cell.index with
  | some parent, some i => a.child parent i
  | _, _ => return none

/-- The leaf of a node that is met first: goes down until there is a token. -/
def edgeLeaf (a : Arena) (d : Direction) : Nat → Nat → Checked (Option Nat)
  | 0, _ => .error .endless
  | rounds + 1, id => do
    let cell ← Checked.get a.cells id
    if cell.kind.isToken then return some id
    else
      match d.front cell.count with
      | none => return none
      | some i =>
        match ← a.child id i with
        | none => return none
        | some child => a.edgeLeaf d rounds child

/-- The leaf that is met first from a sibling on: goes on until one has a leaf. -/
def scan (a : Arena) (d : Direction) : Nat → Option Nat → Checked (Option Nat)
  | _, none => return none
  | 0, some _ => .error .endless
  | rounds + 1, some id => do
    match ← a.edgeLeaf d (rounds + 1) id with
    | some leaf => return some leaf
    | none =>
      let next ← a.sibling d id
      a.scan d rounds next

/-- The leaf next to a node: goes up until a sibling has a leaf. -/
def neighbour (a : Arena) (d : Direction) : Nat → Nat → Checked (Option Nat)
  | 0, _ => .error .endless
  | rounds + 1, id => do
    let next ← a.sibling d id
    match ← a.scan d (rounds + 1) next with
    | some leaf => return some leaf
    | none =>
      let cell ← Checked.get a.cells id
      match cell.parent with
      | none => return none
      | some parent => a.neighbour d rounds parent

/-! ## What they find in a tree -/

variable {a : Arena} {d : Direction}

theorem child_eq {x : Entry} (h : a.Has x) (i : Nat) : a.child x.id i = .ok x.children[i]? := by
  obtain ⟨start, hcell, hlinks⟩ := h
  rw [child, Checked.get_eq hcell, Checked.ok_bind]
  split_ifs with hi
  · have hlink := hlinks i hi
    rw [List.getElem?_eq_getElem hi] at hlink ⊢
    rw [Checked.get_eq hlink]
    rfl
  · rw [List.getElem?_eq_none (Nat.le_of_not_lt hi)]
    rfl

/-- The cell of a node in its place. -/
theorem exists_cell {c : Cursor} (h : ∀ x ∈ c.root.entries none 0, a.Has x) :
    ∃ start, a.cells[c.focus.id]? = some ⟨c.focus.kind, c.focus.span,
      c.parent?.map fun p => p.focus.id, c.index, start, c.focus.children.length⟩ := by
  obtain ⟨start, hcell, _⟩ := h _ c.entry_mem_root
  rw [Cursor.entry, List.length_map] at hcell
  exact ⟨start, hcell⟩

/-- The child of a node in a given place is the one in the tree. -/
theorem child_eq_map {c : Cursor} (h : ∀ x ∈ c.root.entries none 0, a.Has x) (i : Nat) :
    a.child c.focus.id i = .ok ((c.childAt? i).map fun d => d.focus.id) := by
  have hchild := child_eq (h _ c.entry_mem_root) i
  rw [Cursor.entry, List.getElem?_map] at hchild
  rw [hchild]
  cases hn : c.focus.children[i]? with
  | none =>
    cases hd : c.childAt? i with
    | none => rfl
    | some d => exact absurd (Cursor.childAt?_eq_some hd).1 (by rw [hn]; exact nofun)
  | some n =>
    obtain ⟨d, hd, rfl⟩ := Cursor.exists_childAt? hn
    rw [hd]
    rfl

/-- Down from a node, as many rounds are enough as there are nodes. -/
theorem edgeLeaf_eq {rounds : Nat} {n : Node} {parent : Option Nat} {index : Nat}
    (h : ∀ x ∈ n.entries parent index, a.Has x) (hr : n.size ≤ rounds) :
    a.edgeLeaf d rounds n.id = .ok ((d.edge? n).map Node.id) := by
  induction rounds generalizing n parent index with
  | zero => exact absurd hr (Nat.not_le_of_gt n.size_pos)
  | succ rounds ih =>
    rw [Node.entries_eq, List.forall_mem_cons] at h
    obtain ⟨hself, hbelow⟩ := h
    have hchild := child_eq hself
    obtain ⟨start, hcell, _⟩ := hself
    rw [edgeLeaf, Checked.get_eq hcell, Checked.ok_bind, d.edge?_eq]
    simp only [List.length_map]
    split_ifs with hk
    · rfl
    · cases hfront : d.front n.children.length with
      | none => rfl
      | some i =>
        simp only [List.getElem?_map] at hchild
        simp only [hchild, Checked.ok_bind, Option.bind_some]
        cases hc : n.children[i]? with
        | none => rfl
        | some c =>
          have hsize : c.size ≤ rounds := by
            have := List.single_le_sum (by simp) _ (List.mem_map_of_mem (f := Node.size)
              (List.mem_of_getElem? hc))
            rw [Node.size_eq] at hr
            omega
          exact ih (fun x hx => hbelow x (Node.mem_entriesAll_of_getElem? hc hx)) hsize

/-- The sibling of a node in the arena is the one in the tree. -/
theorem sibling_eq {c : Cursor} (h : ∀ x ∈ c.root.entries none 0, a.Has x) :
    a.sibling d c.focus.id = .ok ((d.step? c).map fun e => e.focus.id) := by
  obtain ⟨n, path⟩ := c
  obtain ⟨start, hcell, _⟩ := h _ (Cursor.entry_mem_root ⟨n, path⟩)
  change a.cells[n.id]? = _ at hcell
  rw [sibling, Checked.get_eq hcell, Checked.ok_bind]
  cases path with
  | nil => cases d <;> rfl
  | cons k ks =>
    -- the node above holds the sibling among its children
    have hparent : a.Has (⟨k.plug n, ks⟩ : Cursor).entry := h _ (Cursor.entry_mem_root ⟨k.plug n, ks⟩)
    have hbeside := congrArg (Option.map Node.id) (@Direction.beside_index d ⟨n, k :: ks⟩ k ks rfl)
    rw [Option.map_map] at hbeside
    change _ = (d.step? ⟨n, k :: ks⟩).map (fun e => e.focus.id) at hbeside
    rw [← hbeside]
    simp only [Cursor.entry, Cursor.parent?, Option.map_some]
    cases d.beside (⟨n, k :: ks⟩ : Cursor).index with
    | none => rfl
    | some i =>
      have hchild := child_eq hparent i
      simp only [Cursor.entry, List.getElem?_map] at hchild
      exact hchild

/-- Along the siblings, as many rounds are enough as there are nodes below them. -/
theorem scan_eq {rounds : Nat} {c : Cursor} {k : Crumb} {ks : List Crumb} (hpath : c.path = k :: ks)
    (h : ∀ x ∈ c.root.entries none 0, a.Has x) (hr : Node.sizeAll (d.side k) ≤ rounds) :
    a.scan d rounds ((d.step? c).map fun e => e.focus.id) =
      .ok (((d.side k).findSome? d.edge?).map Node.id) := by
  induction rounds generalizing c k with
  | zero =>
    rcases d.step?_cases hpath with ⟨hnil, hnone⟩ | ⟨e, l, _, _, _, hside⟩
    · rw [hnil, hnone]
      rfl
    · rw [hside, Node.sizeAll] at hr
      have := e.focus.size_pos
      omega
  | succ rounds ih =>
    rcases d.step?_cases hpath with ⟨hnil, hnone⟩ | ⟨e, l, hsome, hroot, he, hside⟩
    · rw [hnil, hnone]
      rfl
    · rw [hside, Node.sizeAll] at hr
      have hstored := hroot ▸ h
      have hpos := e.focus.size_pos
      rw [hsome, Option.map_some, scan, edgeLeaf_eq (fun x hx => hstored x (Cursor.mem_entries_root hx))
        (by omega), Checked.ok_bind, hside, List.findSome?_cons]
      cases d.edge? e.focus with
      | some leaf => rfl
      | none =>
        simp only [Option.map_none]
        rw [sibling_eq hstored, Checked.ok_bind]
        exact ih he hstored (by omega)

/-- **Up from a node**, as many rounds are enough as there are nodes outside it, and one. -/
theorem neighbour_eq {rounds : Nat} {c : Cursor} (h : ∀ x ∈ c.root.entries none 0, a.Has x)
    (hr : c.root.size < rounds + c.focus.size) :
    a.neighbour d rounds c.focus.id = .ok ((d.neighbour? c).map Node.id) := by
  obtain ⟨n, path⟩ := c
  induction path generalizing n rounds with
  | nil =>
    obtain ⟨rounds, rfl⟩ : ∃ r, rounds = r + 1 := by
      change n.size < rounds + n.size at hr
      exact ⟨rounds - 1, by omega⟩
    obtain ⟨start, hcell, _⟩ := h _ (Cursor.entry_mem_root ⟨n, []⟩)
    change a.cells[n.id]? = _ at hcell
    rw [neighbour, sibling_eq h, Checked.ok_bind]
    have hstep : d.step? ⟨n, []⟩ = none := by cases d <;> rfl
    rw [hstep, Option.map_none, scan, Checked.get_eq hcell]
    cases d <;> rfl
  | cons k ks ih =>
    -- the node above has the siblings, and is not larger than the root
    have hparent := Cursor.size_le_root ⟨k.plug n, ks⟩
    have hsize := d.size_side_lt k n
    change (k.plug n).size ≤ (⟨n, k :: ks⟩ : Cursor).root.size at hparent
    change (⟨n, k :: ks⟩ : Cursor).root.size < rounds + n.size at hr
    obtain ⟨rounds, rfl⟩ : ∃ r, rounds = r + 1 := ⟨rounds - 1, by omega⟩
    obtain ⟨start, hcell, _⟩ := h _ (Cursor.entry_mem_root ⟨n, k :: ks⟩)
    change a.cells[n.id]? = _ at hcell
    rw [neighbour, sibling_eq h, Checked.ok_bind, scan_eq rfl h (by omega), Checked.ok_bind,
      d.neighbour?_eq, List.findSome?_cons]
    cases (d.side k).findSome? d.edge? with
    | some leaf => rfl
    | none =>
      simp only [Option.map_none]
      rw [Checked.get_eq hcell, Checked.ok_bind, ← d.neighbour?_eq ⟨k.plug n, ks⟩]
      have hr' : (⟨k.plug n, ks⟩ : Cursor).root.size < rounds + (k.plug n).size := by
        change (⟨n, k :: ks⟩ : Cursor).root.size < _
        omega
      exact ih (k.plug n) h hr'

/-- What the searches in an arena find around a node, within some rounds. -/
structure Finds (a : Arena) (rounds : Nat) (c : Cursor) : Prop where
  first : a.edgeLeaf .forward rounds c.focus.id = .ok (c.focus.firstLeaf?.map Node.id)
  last : a.edgeLeaf .backward rounds c.focus.id = .ok (c.focus.lastLeaf?.map Node.id)
  next : a.neighbour .forward rounds c.focus.id = .ok (c.nextLeaf?.map Node.id)
  prev : a.neighbour .backward rounds c.focus.id = .ok (c.prevLeaf?.map Node.id)

/-- **The searches in an arena come to an end**, and find what they find in the tree it stores. -/
theorem finds {t : Tree} (h : ∀ x ∈ t.entries, a.Has x) {c : Cursor} (hc : c ∈ t.cursors)
    {rounds : Nat} (hr : t.root.size ≤ rounds) : a.Finds rounds c := by
  rw [Tree.entries_eq, ← Tree.root_of_mem_cursors hc] at h
  rw [← Tree.root_of_mem_cursors hc] at hr
  have hfocus := fun x hx => h x (Cursor.mem_entries_root hx)
  have hsize := c.size_le_root
  have hpos := c.focus.size_pos
  exact ⟨edgeLeaf_eq hfocus (by omega), edgeLeaf_eq hfocus (by omega), neighbour_eq h (by omega),
    neighbour_eq h (by omega)⟩

end Arena

/-- **The searches for leaves follow the order of the leaves** in the tree of every result. In every
arena that stores the tree they come to an end, from every node, within as many rounds as the tree
has nodes. -/
theorem leaf_neighbours {text : Text} {options : Options} {p : Parse}
    (h : Parse.Reachable text options p) : p.tree.LeavesInOrder ∧
      ∀ a : Arena, (∀ x ∈ p.tree.entries, a.Has x) → ∀ c ∈ p.tree.cursors,
        ∀ rounds ≥ p.tree.root.size, a.Finds rounds c := by
  obtain ⟨f, _, hroot⟩ := h.faithful.tree
  exact ⟨hroot.leavesInOrder h.faithful.ids, fun _ ha _ hc _ hr => Arena.finds ha hc hr⟩

/-- An objective gets a second term, and its entries new places in the arena: the searches go from `x`
to the sign, from there to `y`, and stop. -/
theorem leaf_neighbours_sum : ∃ (d : Filed) (p : Parse),
    (Filed.parse ['x'] {} >>= fun d => d.after ⟨⟨1, 1⟩, ['+', 'y']⟩) = .ok d ∧
      d.load = .ok p ∧ p.tree.root.leaves.map Node.id = [8, 9, 11] ∧
      ∀ i c, p.tree.leafCursors[i]? = some c →
        d.arena.neighbour .forward p.tree.root.size c.focus.id = .ok [8, 9, 11][i + 1]? := by
  have hr : (parse ['x'] {}).reparse ⟨⟨1, 1⟩, ['+', 'y']⟩ =
      .ok ((parse ['x'] {}).reparseText ⟨⟨1, 1⟩, ['+', 'y']⟩ ['x', '+', 'y']) := rfl
  have hleaves : ((parse ['x'] {}).reparseText ⟨⟨1, 1⟩, ['+', 'y']⟩
      ['x', '+', 'y']).1.parse.tree.root.leaves.map Node.id = [8, 9, 11] := by decide +kernel
  generalize (parse ['x'] {}).reparseText ⟨⟨1, 1⟩, ['+', 'y']⟩ ['x', '+', 'y'] = r at hr hleaves
  obtain ⟨answer, log⟩ := r
  obtain ⟨d, hparse, hd⟩ := @Filed.parse_eq ['x'] (by decide) {}
  obtain ⟨d', hafter, hd'⟩ := Filed.after_eq hd (parse_faithful ['x'] {}) (parse_accounted ['x'] {})
    (e := ⟨⟨1, 1⟩, ['+', 'y']⟩) (by decide) (by decide) (by decide)
  rw [Parse.after, hr] at hd'
  have hreach : Parse.Reachable ['x'] {} answer.parse :=
    .step (@Parse.Reachable.start ['x'] {}) (by decide) hr
  have h := leaf_neighbours hreach
  refine ⟨d', answer.parse, ?_, hd'.load_eq hreach.accounted, hleaves, fun i c hc => ?_⟩
  · rw [hparse, Checked.ok_bind, hafter]
  · have hmem := (Tree.mem_leafCursors.1 (List.mem_of_getElem? hc)).1
    rw [(h.2 d'.arena hd'.entries c hmem _ (Nat.le_refl _)).next, (h.1.leaf i c hc).next,
      ← List.getElem?_map, hleaves]

end LpFormat
