import LpFormat.Proofs.Tree.Cover

/-!
# Neighbouring leaves

From a node, the search for the leaf behind it climbs, looks into the siblings behind, and takes the
first leaf of the first that has one. Every node below the root has leaves, so no sibling is passed
over, and the leaf found is the next one in the order of the text; and so backwards.

* `Cursor.root_leaves`: the leaves of a tree around one of its nodes;
* `Cursor.nextLeaf?_eq`, `Cursor.prevLeaf?_eq`: the searches find the nearest of them;
  `Node.Rooted.firstLeaf?_eq`, `Node.Rooted.lastLeaf?_eq`: the leaves at the ends of a node;
* `Tree.Borders`: what the searches find around some of the leaves of a tree;
  **`Node.Rooted.exists_borders`**, **`Node.Rooted.borders_leaf`**: around every node and every leaf;
* `Tree.LeavesInOrder`: all of it together.
-/

namespace LpFormat

theorem findSome?_congr {α β : Type} {f g : α → Option β} {xs : List α}
    (h : ∀ x ∈ xs, f x = g x) : xs.findSome? f = xs.findSome? g := by
  rw [← List.head?_filterMap, ← List.head?_filterMap, List.filterMap_congr h]

namespace Cursor

/-! ## Leaves around a node -/

/-- **The leaves of a tree around one of its nodes.** -/
theorem root_leaves {path : List Crumb} (hk : ∀ k ∈ path, k.kind.isNode = true) (n : Node) :
    (⟨n, path⟩ : Cursor).root.leaves =
      (⟨n, path⟩ : Cursor).leavesBefore.reverse ++ n.leaves ++
        (⟨n, path⟩ : Cursor).leavesAfter := by
  induction path generalizing n with
  | nil => simp [root, leavesBefore, leavesAfter]
  | cons k ks ih =>
    obtain ⟨hk₀, hks⟩ := List.forall_mem_cons.1 hk
    have htoken : ¬ (k.plug n).kind.isToken = true := by simp [Crumb.plug, Kind.isToken, hk₀]
    have hplug : (k.plug n).leaves = (k.before.flatMap fun m => m.leaves.reverse).reverse ++
        n.leaves ++ k.after.flatMap Node.leaves := by
      rw [Node.leaves_eq, if_neg htoken, Crumb.children_plug, List.flatMap_append,
        List.flatMap_cons, List.reverse_flatMap, List.append_assoc]
      simp only [Function.comp_def, List.reverse_reverse]
    rw [root_cons, ih hks, hplug]
    simp [leavesBefore, leavesAfter]

variable {c : Cursor}

theorem nextLeaf?_eq (h : ∀ k ∈ c.path, OnPath k) : c.nextLeaf? = c.leavesAfter.head? := by
  rw [leavesAfter, List.head?_flatMap]
  refine findSome?_congr fun k hk => ?_
  rw [List.head?_flatMap]
  exact findSome?_congr fun n hn => ((h k hk).after n hn).firstLeaf?_eq

theorem prevLeaf?_eq (h : ∀ k ∈ c.path, OnPath k) : c.prevLeaf? = c.leavesBefore.head? := by
  rw [leavesBefore, List.head?_flatMap]
  refine findSome?_congr fun k hk => ?_
  rw [List.head?_flatMap]
  refine findSome?_congr fun n hn => ?_
  rw [((h k hk).before n hn).lastLeaf?_eq, List.head?_reverse]

end Cursor

/-! ## Every node of a tree -/

/-- What the searches find from a node that has the leaves of a tree from one index to another. -/
structure Tree.Borders (t : Tree) (c : Cursor) (i j : Nat) : Prop where
  leaves : c.focus.leaves = (t.root.leaves.take (j + 1)).drop i
  first : c.focus.firstLeaf? = t.root.leaves[i]?
  last : c.focus.lastLeaf? = t.root.leaves[j]?
  next : c.nextLeaf? = t.root.leaves[j + 1]?
  prev : c.prevLeaf? = if i = 0 then none else t.root.leaves[i - 1]?

/-- In a node without children nothing is found. -/
theorem Node.bare_leaves {n : Node} (hk : n.kind.isNode = true) (hchildren : n.children = []) :
    n.leaves = [] ∧ n.firstLeaf? = none ∧ n.lastLeaf? = none := by
  obtain ⟨id, kind, span, children⟩ := n
  obtain rfl : children = [] := hchildren
  have htoken : ¬ kind.isToken = true := by simpa [Kind.isToken] using hk
  refine ⟨by rw [leaves_eq, if_neg htoken]; rfl, ?_, ?_⟩
  · rw [firstLeaf?, if_neg htoken, firstLeafOfFirst?]
  · rw [lastLeaf?, if_neg htoken, lastLeafOfLast?]

namespace Node.Rooted

variable {t : Tree} {f : List Skeleton} {size : Nat} {c : Cursor}

/-- A node of a tree is the root or below it. -/
theorem root_or_placed (h : t.root.Rooted f size) (hc : c ∈ t.cursors) :
    c = t.cursor ∨ c.Placed f size := by
  have hroot := Tree.root_of_mem_cursors hc
  by_cases hp : c.path = []
  · obtain ⟨n, path⟩ := c
    obtain rfl : path = [] := hp
    exact .inl (congrArg (Cursor.mk · []) hroot)
  · exact .inr (Cursor.placed_of_root h hroot hp)

theorem onPath (h : t.root.Rooted f size) (hc : c ∈ t.cursors) :
    ∀ k ∈ c.path, Cursor.OnPath k := by
  rcases h.root_or_placed hc with rfl | hplaced
  · exact List.forall_mem_nil _
  · exact hplaced.fitted.2

/-- Every node of a tree fits, but for a root without children. -/
theorem fitted_or_bare (h : t.root.Rooted f size) (hc : c ∈ t.cursors) :
    c.focus.Fitted ∨ c.focus.kind.isNode = true ∧ c.focus.children = [] := by
  rcases h.root_or_placed hc with rfl | hplaced
  · have hk : t.root.kind.isNode = true := by
      rw [h.kind]
      rfl
    by_cases hne : t.root.children = []
    · exact .inr ⟨hk, hne⟩
    · exact .inl (h.tiled.toFitted hk hne)
  · exact .inl hplaced.fitted.1

theorem firstLeaf?_eq (h : t.root.Rooted f size) (hc : c ∈ t.cursors) :
    c.focus.firstLeaf? = c.focus.leaves.head? := by
  rcases h.fitted_or_bare hc with hfit | ⟨hk, hchildren⟩
  · exact hfit.firstLeaf?_eq
  · rw [(bare_leaves hk hchildren).1, (bare_leaves hk hchildren).2.1]
    rfl

theorem lastLeaf?_eq (h : t.root.Rooted f size) (hc : c ∈ t.cursors) :
    c.focus.lastLeaf? = c.focus.leaves.getLast? := by
  rcases h.fitted_or_bare hc with hfit | ⟨hk, hchildren⟩
  · exact hfit.lastLeaf?_eq
  · rw [(bare_leaves hk hchildren).1, (bare_leaves hk hchildren).2.2]
    rfl

/-- The leaves of a tree around one of its nodes, and which of them the searches find. -/
theorem borders (h : t.root.Rooted f size) (hc : c ∈ t.cursors) (hne : c.focus.leaves ≠ []) :
    t.Borders c c.leavesBefore.length (c.leavesBefore.length + c.focus.leaves.length - 1) := by
  have hpath := h.onPath hc
  have hleaves := Cursor.root_leaves (fun k hk => (hpath k hk).kind) c.focus
  change c.root.leaves = c.leavesBefore.reverse ++ c.focus.leaves ++ c.leavesAfter at hleaves
  rw [Tree.root_of_mem_cursors hc] at hleaves
  have hpos := List.length_pos_of_ne_nil hne
  have hend : c.leavesBefore.length + c.focus.leaves.length - 1 + 1 =
      (c.leavesBefore.reverse ++ c.focus.leaves).length := by
    rw [List.length_append, List.length_reverse]
    omega
  constructor
  · rw [hend, hleaves, List.take_left, List.drop_left' List.length_reverse]
  · rw [h.firstLeaf?_eq hc, hleaves, List.append_assoc,
      List.getElem?_append_right (by rw [List.length_reverse]), List.length_reverse, Nat.sub_self,
      List.getElem?_append_left hpos, List.head?_eq_getElem?]
  · rw [h.lastLeaf?_eq hc, hleaves, List.getElem?_append_left (by rw [← hend]; omega),
      List.getElem?_append_right (by rw [List.length_reverse]; omega), List.length_reverse,
      List.getLast?_eq_getElem?]
    congr 1
    omega
  · rw [Cursor.nextLeaf?_eq hpath, hend, hleaves, List.getElem?_append_right (Nat.le_refl _),
      Nat.sub_self, List.head?_eq_getElem?]
  · rw [Cursor.prevLeaf?_eq hpath, hleaves, List.append_assoc]
    cases hbefore : c.leavesBefore with
    | nil => rfl
    | cons n ns =>
      rw [if_neg (by simp), List.getElem?_append_left (by simp), List.head?_cons,
        List.reverse_cons, List.length_cons, Nat.add_sub_cancel]
      simp

/-- **Around every node the searches find the neighbours of its leaves**, if there is any text. -/
theorem exists_borders (h : t.root.Rooted f t.text.byteSize) (htext : t.text ≠ [])
    (hc : c ∈ t.cursors) : ∃ i j, i ≤ j ∧ j < t.root.leaves.length ∧ t.Borders c i j := by
  have hfit : c.focus.Fitted :=
    ((h.fitted (Text.byteSize_pos htext)).of_mem_descendants c.focus
      (Tree.focus_mem_descendants hc)).1
  have hpos := List.length_pos_of_ne_nil hfit.leaves_ne
  have hb := h.borders hc hfit.leaves_ne
  refine ⟨_, _, by omega, ?_, hb⟩
  have hlast := hb.last
  rw [hfit.lastLeaf?_eq, List.getLast?_eq_some_getLast hfit.leaves_ne] at hlast
  exact (List.getElem?_eq_some_iff.1 hlast.symm).1

/-- **Around a leaf the searches find the leaf before it and the leaf behind it.** -/
theorem borders_leaf (h : t.root.Rooted f t.text.byteSize)
    (hids : (t.root.descendants.map Node.id).Nodup) {i : Nat} (hc : t.leafCursors[i]? = some c) :
    t.Borders c i i := by
  obtain ⟨hmem, hk⟩ := Tree.mem_leafCursors.1 (List.mem_of_getElem? hc)
  have hself : c.focus.leaves = [c.focus] := by
    rw [Node.leaves_eq, if_pos hk]
    rcases h.fitted_or_bare hmem with hfit | ⟨_, hchildren⟩
    · rw [hfit.children_eq_nil hk]
      rfl
    · rw [hchildren]
      rfl
  have hb := h.borders hmem (by rw [hself]; exact List.cons_ne_nil _ _)
  rw [hself, List.length_singleton, Nat.add_sub_cancel] at hb
  have hi : t.root.leaves[i]? = some c.focus := by
    rw [← Tree.map_focus_leafCursors, List.getElem?_map, hc]
    rfl
  have hfirst := hb.first
  rw [h.firstLeaf?_eq hmem, hself, List.head?_cons, ← hi] at hfirst
  have hnodup : t.root.leaves.Nodup := (List.Nodup.of_map _ hids).filter _
  have hlt := (List.getElem?_eq_some_iff.1 hi).1
  rwa [← (List.getElem?_inj hlt hnodup).1 hfirst] at hb

/-- Over an empty text the root is all there is. -/
theorem cursors_of_empty (h : t.root.Rooted f t.text.byteSize) (htext : t.text = []) :
    t.root.children = [] ∧ t.cursors = [t.cursor] := by
  have hchildren : t.root.children = [] := by
    by_contra hne
    obtain ⟨n, ns, hns⟩ := List.exists_cons_of_ne_nil hne
    have hadjoin := h.tiled.adjoin
    have hsolid := (h.tiled.fitted n (hns ▸ List.mem_cons_self)).solid
    rw [hns, h.span, htext] at hadjoin
    obtain ⟨hstart, _, hrest⟩ := hadjoin
    have hstop : n.span.stop ≤ 0 := hrest.le
    omega
  refine ⟨hchildren, ?_⟩
  rw [Tree.cursors, Cursor.descendants, Tree.cursor]
  obtain ⟨text, ⟨id, kind, span, children⟩, allocated, dead⟩ := t
  obtain rfl : children = [] := hchildren
  rfl

end Node.Rooted

/-- The searches for leaves follow the order of the leaves in a tree. -/
structure Tree.LeavesInOrder (t : Tree) : Prop where
  distinct : (t.root.leaves.map Node.id).Nodup
  leaf : ∀ i c, t.leafCursors[i]? = some c → t.Borders c i i
  node : t.text ≠ [] → ∀ c ∈ t.cursors,
    ∃ i j, i ≤ j ∧ j < t.root.leaves.length ∧ t.Borders c i j
  bare : t.text = [] → t.root.leaves = [] ∧ ∀ c ∈ t.cursors,
    c.focus.firstLeaf? = none ∧ c.focus.lastLeaf? = none ∧ c.nextLeaf? = none ∧ c.prevLeaf? = none

theorem Node.Rooted.leavesInOrder {t : Tree} {f : List Skeleton}
    (h : t.root.Rooted f t.text.byteSize) (hids : (t.root.descendants.map Node.id).Nodup) :
    t.LeavesInOrder where
  distinct := hids.sublist ((List.filter_sublist).map _)
  leaf _ _ hc := h.borders_leaf hids hc
  node htext _ hc := h.exists_borders htext hc
  bare htext := by
    have hk : t.root.kind.isNode = true := by
      rw [h.kind]
      rfl
    obtain ⟨hchildren, hcursors⟩ := h.cursors_of_empty htext
    obtain ⟨hleaves, hfirst, hlast⟩ := bare_leaves hk hchildren
    refine ⟨hleaves, fun c hc => ?_⟩
    rw [hcursors] at hc
    obtain rfl := List.mem_singleton.1 hc
    exact ⟨hfirst, hlast, rfl, rfl⟩

end LpFormat
