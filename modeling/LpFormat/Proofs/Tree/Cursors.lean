import LpFormat.Proofs.Tree.Splice

/-!
# The nodes of a tree in their places

* `Cursor.map_focus_descendantsFrom`, `Cursor.root_of_mem_descendantsFrom`: walking over a tree
  meets each of its nodes, with the way back to the root;
* `Cursor.mem_descendants_root`: what is below a node is below the root;
  `Cursor.descendantsFrom_subset`: walking over a node walks over its children;
* **`Tree.exists_cursor`**, `Tree.root_of_mem_cursors`: every node of a tree has a place in it, and
  every place leads back to the root; `Tree.mem_cursors_iff`: whatever leads back to the root is a
  place in the tree.
-/

namespace LpFormat

namespace Cursor

mutual

theorem map_focus_descendantsFrom (path : List Crumb) (n : Node) :
    (descendantsFrom path n).map focus = n.descendants := by
  match n with
  | ⟨id, kind, span, children⟩ =>
    rw [descendantsFrom, List.map_cons, map_focus_descendantsFromAll, Node.descendants]

theorem map_focus_descendantsFromAll (id : Nat) (kind : Kind) (span : Span) (path : List Crumb)
    (before ns : List Node) :
    (descendantsFromAll id kind span path before ns).map focus = Node.descendantsAll ns := by
  match ns with
  | [] => rfl
  | n :: ns =>
    rw [descendantsFromAll, List.map_append, map_focus_descendantsFrom,
      map_focus_descendantsFromAll id kind span path (n :: before) ns, Node.descendantsAll]

end

mutual

/-- Every node that a walk meets leads back to where the walk began. -/
theorem root_of_mem_descendantsFrom {path : List Crumb} {n : Node} {c : Cursor}
    (h : c ∈ descendantsFrom path n) : c.root = (⟨n, path⟩ : Cursor).root := by
  match n with
  | ⟨id, kind, span, children⟩ =>
    rw [descendantsFrom] at h
    rcases List.mem_cons.1 h with rfl | h
    · rfl
    · exact root_of_mem_descendantsFromAll h

theorem root_of_mem_descendantsFromAll {id : Nat} {kind : Kind} {span : Span} {path : List Crumb}
    {before ns : List Node} {c : Cursor} (h : c ∈ descendantsFromAll id kind span path before ns) :
    c.root = (⟨⟨id, kind, span, before.reverse ++ ns⟩, path⟩ : Cursor).root := by
  match ns with
  | [] => cases h
  | n :: ns =>
    rw [descendantsFromAll] at h
    rcases List.mem_append.1 h with h | h
    · have hroot := root_of_mem_descendantsFrom h
      rwa [root_cons] at hroot
    · rw [root_of_mem_descendantsFromAll h, List.reverse_cons, List.append_assoc,
        List.singleton_append]

end

/-- What is below a node is below the root. -/
theorem mem_descendants_root {path : List Crumb} {n m : Node} (h : m ∈ n.descendants) :
    m ∈ (⟨n, path⟩ : Cursor).root.descendants := by
  induction path generalizing n with
  | nil => exact h
  | cons k ks ih =>
    refine ih ?_
    rw [Node.descendants_eq]
    refine List.mem_cons_of_mem _ (List.mem_flatMap.2 ⟨n, ?_, h⟩)
    exact List.mem_append_right _ List.mem_cons_self

theorem descendantsFrom_subset_all (id : Nat) (kind : Kind) (span : Span) (path : List Crumb)
    (before as bs : List Node) (m : Node) :
    descendantsFrom (⟨id, kind, span, as.reverse ++ before, bs⟩ :: path) m ⊆
      descendantsFromAll id kind span path before (as ++ m :: bs) := by
  induction as generalizing before with
  | nil =>
    rw [List.nil_append, descendantsFromAll]
    exact List.subset_append_left _ _
  | cons a as ih =>
    rw [List.cons_append, descendantsFromAll, List.reverse_cons, List.append_assoc]
    exact List.subset_append_of_subset_right _ (ih (a :: before))

/-- A walk over a node meets all that a walk over one of its children meets. -/
theorem descendantsFrom_subset {path : List Crumb} {n m : Node} {as bs : List Node}
    (h : n.children = as ++ m :: bs) :
    descendantsFrom (⟨n.id, n.kind, n.span, as.reverse, bs⟩ :: path) m ⊆
      descendantsFrom path n := by
  obtain ⟨id, kind, span, children⟩ := n
  cases h
  rw [descendantsFrom]
  refine List.subset_cons_of_subset _ ?_
  have hsub := descendantsFrom_subset_all id kind span path [] as bs m
  rwa [List.append_nil] at hsub

theorem self_mem_descendantsFrom (path : List Crumb) (n : Node) :
    ⟨n, path⟩ ∈ descendantsFrom path n := by
  obtain ⟨id, kind, span, children⟩ := n
  rw [descendantsFrom]
  exact List.mem_cons_self

/-- A walk over the root meets all that a walk over a node in its place meets. -/
theorem descendantsFrom_subset_root (path : List Crumb) (n : Node) :
    descendantsFrom path n ⊆ descendantsFrom [] (⟨n, path⟩ : Cursor).root := by
  induction path generalizing n with
  | nil => exact List.Subset.refl _
  | cons k ks ih =>
    have hsub := @descendantsFrom_subset ks (k.plug n) n k.before.reverse k.after rfl
    rw [List.reverse_reverse] at hsub
    exact List.Subset.trans hsub (ih (k.plug n))

end Cursor

namespace Tree

/-- **Every node of a tree has a place in it.** -/
theorem exists_cursor (t : Tree) {n : Node} (h : n ∈ t.root.descendants) :
    ∃ c : Cursor, c.focus = n ∧ c.root = t.root := by
  rw [← Cursor.map_focus_descendantsFrom [] t.root] at h
  obtain ⟨c, hc, rfl⟩ := List.mem_map.1 h
  exact ⟨c, rfl, Cursor.root_of_mem_descendantsFrom hc⟩

theorem root_of_mem_cursors {t : Tree} {c : Cursor} (h : c ∈ t.cursors) : c.root = t.root :=
  Cursor.root_of_mem_descendantsFrom h

theorem mem_cursors_iff {t : Tree} {c : Cursor} : c ∈ t.cursors ↔ c.root = t.root := by
  refine ⟨root_of_mem_cursors, fun h => ?_⟩
  have hmem := Cursor.descendantsFrom_subset_root c.path c.focus
    (Cursor.self_mem_descendantsFrom c.path c.focus)
  change c ∈ Cursor.descendantsFrom [] c.root at hmem
  rwa [h] at hmem

theorem focus_mem_descendants {t : Tree} {c : Cursor} (h : c ∈ t.cursors) :
    c.focus ∈ t.root.descendants := by
  rw [← Cursor.map_focus_descendantsFrom [] t.root]
  exact List.mem_map_of_mem h

end Tree

end LpFormat
