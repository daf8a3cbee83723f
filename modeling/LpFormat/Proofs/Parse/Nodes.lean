import LpFormat.Proofs.Parse.Schema

/-!
# The nodes of a tree, one by one

What is known of any node of the tree of a text, wherever it stands.

* `Node.filter_descendants_self`, `Node.filter_descendants_children`: where nodes with a property
  are not nested;
* **`parse_nodes`**: a node fits around its children, and all below it obey the schema;
* `exists_scan_of_mem_lex`: how a token of a text was read;
* `parse_leaf`: the token that a leaf stands for.
-/

namespace LpFormat

theorem Node.filter_descendants_self {n : Node} {p : Node → Bool}
    (h : ∀ m ∈ n.children.flatMap descendants, p m = false) :
    n.descendants.filter p = [n].filter p := by
  have hbelow : (n.children.flatMap descendants).filter p = [] :=
    List.filter_eq_nil_iff.2 fun m hm => by simp [h m hm]
  rw [descendants_eq, List.filter_cons, hbelow, List.filter_cons, List.filter_nil]

theorem Node.filter_descendants_children {n : Node} {p : Node → Bool} (hn : p n = false)
    (h : ∀ c ∈ n.children, c.descendants.filter p = [c].filter p) :
    n.descendants.filter p = n.children.filter p := by
  rw [descendants_eq, List.filter_cons_of_neg (by simp [hn]), List.filter_flatMap,
    List.flatMap_congr h, ← List.filter_flatMap, List.flatMap_singleton']

/-- **Every node of a tree but the root fits around its children, and all below it conform and
belong to the tree.** -/
theorem parse_nodes (text : Text) (options : Options) {n : Node}
    (hn : n ∈ (parse text options).tree.root.descendants) (hk : n.kind ≠ .document) :
    n.Fitted ∧ ∀ m ∈ n.descendants,
      m.Conforms ∧ m ∈ (parse text options).tree.root.descendants := by
  obtain ⟨f, ns, hr, _, _, hns, htree⟩ := parse_reading text options
  have hschematic : ∀ s ∈ f, s.Schematic := by
    cases hr.schematic _ List.mem_cons_self with
    | node _ hf => exact hf
  rw [htree, Node.descendants_eq] at hn
  rcases List.mem_cons.1 hn with rfl | hn
  · exact absurd rfl hk
  · obtain ⟨c, hc, hn⟩ := List.mem_flatMap.1 hn
    have hfitted := hns.fitted c hc
    obtain ⟨hfit, hsub⟩ := hfitted.of_mem_descendants n hn
    have hconforms := hfitted.conforms (hschematic _ (hns.skeletons ▸ List.mem_map_of_mem hc))
    refine ⟨hfit, fun m hm => ⟨hconforms m (hsub hm), ?_⟩⟩
    rw [htree, Node.descendants_eq]
    exact List.mem_cons_of_mem _ (List.mem_flatMap.2 ⟨c, hc, hsub hm⟩)

/-- Every token of a text is what the reader gives in front of the rest. -/
theorem exists_scan_of_mem_lex {text : Text} {t : Token} (ht : t ∈ lex text) :
    ∃ mode rest, Lexeme.scan mode (t.text ++ rest) = (t.kind, t.text.length) := by
  obtain ⟨r, mode, h, _⟩ := lex_reads text
  obtain ⟨ts, us, hsplit⟩ := List.append_of_mem ht
  rw [hsplit, ← List.singleton_append, ← List.append_assoc] at h
  obtain ⟨r', mode', hbefore, _⟩ := h.split
  obtain ⟨_, m, hscan⟩ := hbefore.scan_last t (by simp)
  exact ⟨m, r'.rest, hscan⟩

theorem exists_of_mem_forall₂ {α β : Type} {R : α → β → Prop} {xs : List α} {ys : List β}
    (h : List.Forall₂ R xs ys) {y : β} (hy : y ∈ ys) : ∃ x ∈ xs, R x y := by
  induction h with
  | nil => cases hy
  | @cons x y' xs ys hxy _ ih =>
    rcases List.mem_cons.1 hy with rfl | hy
    · exact ⟨x, List.mem_cons_self, hxy⟩
    · obtain ⟨x', hx', hr⟩ := ih hy
      exact ⟨x', List.mem_cons_of_mem _ hx', hr⟩

/-- A leaf stands for a token of the text, and covers its characters. -/
theorem parse_leaf (text : Text) (options : Options) {n : Node}
    (hn : n ∈ (parse text options).tree.root.descendants) (hk : n.kind.isToken = true) :
    ∃ t ∈ lex text, n.StandsFor t ∧ (parse text options).tree.textOf n = t.text := by
  obtain ⟨f, ns, _, hleaf, hns, htree⟩ := parse_built text options
  obtain ⟨r, mode, hreads, _⟩ := lex_reads text
  have hmem : (n.kind, n.span) ∈ leavesOf (Skeleton.eventsAll f) := by
    rw [← leaves_parse_eq hns 0 ⟨0, text.byteSize⟩, Node.leaves]
    rw [htree] at hn
    exact List.mem_map.2 ⟨n, List.mem_filter.2 ⟨hn, hk⟩, rfl⟩
  obtain ⟨t, ht, hstands⟩ := exists_of_mem_forall₂ hleaf hmem
  have hfor := Node.standsFor_of_leaf (hreads.kind_isLexed t ht) hstands
  refine ⟨t, ht, hfor, ?_⟩
  rw [htree, Tree.textOf, hfor.span]
  exact slice_lex text t ht

end LpFormat
