import LpFormat.Proofs.Reparse.Invariant

/-!
# Counting dead entries

A tree does not look for its dead entries: it is told how many there are. Along every history of
edits the number is right, and it stays below the share that the options allow.

* `Cursor.size_splice`, `Cursor.size_le_splice`: what `splice` makes of sizes;
* `Parse.Accounted`: dead and living entries make up all entries, and not too many are dead;
  `parse_accounted`, `Parse.Accounted.step`, `Parse.Reachable.accounted`;
* `Tree.unreachable`: the entries that are not in the tree;
* **`dead_accounted`**: what every result says about its entries.
-/

namespace LpFormat

/-! ## Sizes -/

/-- A node in the place of another changes the size by the difference of the two. -/
theorem Cursor.size_splice (c : Cursor) (n : Node) (δ : Int) :
    (c.splice n δ).size + c.focus.size = c.root.size + n.size := by
  have hnew := congrArg List.length (c.splice_ids n δ)
  have hold := congrArg List.length (root_ids c.path c.focus)
  change (c.root.descendants.map Node.id).length = _ at hold
  simp only [List.length_append, Node.length_ids] at hnew hold
  omega

theorem Cursor.size_le_splice (c : Cursor) (n : Node) (δ : Int) : n.size ≤ (c.splice n δ).size := by
  have hnew := congrArg List.length (c.splice_ids n δ)
  simp only [List.length_append, Node.length_ids] at hnew
  omega

/-! ## The invariant -/

/-- Dead and living entries make up all entries, and no more are dead than the options allow. -/
structure Parse.Accounted (p : Parse) : Prop where
  entries : p.tree.dead + p.tree.root.size = p.tree.allocated
  bound : p.tree.dead * 100 ≤ p.tree.allocated * p.options.maxDeadPercent

theorem Parse.Accounted.nodeCount_eq {p : Parse} (h : p.Accounted) :
    p.tree.nodeCount = p.tree.root.size := by
  have := h.entries
  rw [Tree.nodeCount]
  omega

theorem parse_accounted (text : Text) (options : Options) : (parse text options).Accounted := by
  obtain ⟨f, ns, _, _, _, htree⟩ := parse_built text options
  refine ⟨?_, ?_⟩
  · rw [htree, Node.size_eq, Nat.zero_add]
  · rw [htree]
    simp only [Nat.zero_mul, Nat.zero_le]

namespace Parse

/-- Whichever way an edit is answered, the entries stay accounted for. -/
theorem Accounted.step {p : Parse} {e : Edit} {answer : Reparse} {log : List LogEntry}
    (ha : p.Accounted) (hp : p.Faithful) (he : e.span.start ≤ e.span.stop)
    (hr : p.reparse e = .ok (answer, log)) : answer.parse.Accounted := by
  have hoptions := (reparse_eq_ok hp he hr).2.2
  obtain ⟨a, m, z, hcut, _, htoken | hstatement | ⟨reason, rfl⟩⟩ := reparse_cases he hr
  · obtain ⟨c, n, _, hs, _, hn, hallocated, hdead, _⟩ := relexToken?_spliced hp hcut htoken
    have hsize := c.size_splice n e.delta
    have hsame : n.size = c.focus.size := by rw [hn, Node.size_eq, Node.size_eq]
    rw [← hs.tree, hs.root] at hsize
    have := ha.entries
    refine ⟨by omega, ?_⟩
    rw [hdead, hallocated, hoptions]
    exact ha.bound
  · obtain ⟨c, n, _, hs, _, hallocated, hdead, hbound, _⟩ :=
      reparseStatement_spliced hp hcut hstatement
    have hsize := c.size_splice n e.delta
    rw [← hs.tree, hs.root] at hsize
    have := ha.entries
    exact ⟨by omega, hoptions ▸ hbound⟩
  · exact parse_accounted _ _

theorem Reachable.accounted {text : Text} {options : Options} {p : Parse}
    (h : Reachable text options p) : p.Accounted := by
  induction h with
  | start => exact parse_accounted text options
  | step h he hr ih => exact ih.step h.faithful he hr

theorem Reachable.options_eq {text : Text} {options : Options} {p : Parse}
    (h : Reachable text options p) : p.options = options := by
  induction h with
  | start => rfl
  | step h he hr ih => exact (reparse_eq_ok h.faithful he hr).2.2.trans ih

end Parse

/-! ## Entries that are not in the tree -/

/-- The ids that were given out and that no node of the tree has. -/
def Tree.unreachable (t : Tree) : List Nat :=
  (List.range t.allocated).filter fun id => id ∉ t.root.descendants.map Node.id

theorem Tree.length_unreachable {t : Tree} (hids : (t.root.descendants.map Node.id).Nodup)
    (hlt : ∀ id ∈ t.root.descendants.map Node.id, id < t.allocated) :
    t.unreachable.length + t.root.size = t.allocated := by
  -- the ids that nodes have are the other part of all ids
  have hliving : ((List.range t.allocated).filter fun id => id ∈ t.root.descendants.map Node.id).Perm
      (t.root.descendants.map Node.id) := by
    refine (List.perm_ext_iff_of_nodup (List.nodup_range.filter _) hids).2 fun id => ?_
    rw [List.mem_filter, List.mem_range, decide_eq_true_iff]
    exact ⟨And.right, fun h => ⟨hlt id h, h⟩⟩
  have hparts := List.length_eq_length_filter_add (l := List.range t.allocated)
    fun id => decide (id ∈ t.root.descendants.map Node.id)
  rw [hliving.length_eq, Node.length_ids, List.length_range] at hparts
  simp only [unreachable, decide_not]
  omega

/-- **Dead entries are accounted for along every history**: the entries less the nodes are as many as
the entries outside the tree, the nodes are as many as a walk through the tree meets, and the share
of dead entries does not exceed the one that the options allow. -/
theorem dead_accounted {text : Text} {options : Options} {p : Parse}
    (h : Parse.Reachable text options p) :
    p.tree.nodeCount ≤ p.tree.allocated ∧
      p.tree.allocated - p.tree.nodeCount = p.tree.unreachable.length ∧
      p.tree.nodeCount = p.tree.root.descendants.length ∧
      (p.tree.allocated - p.tree.nodeCount) * 100 ≤ p.tree.allocated * options.maxDeadPercent := by
  have hentries := h.accounted.entries
  have hunreachable := Tree.length_unreachable h.faithful.ids h.faithful.allocated
  have hcount := h.accounted.nodeCount_eq
  have hdead : p.tree.allocated - p.tree.nodeCount = p.tree.dead := by omega
  rw [Node.length_descendants, hdead, ← h.options_eq]
  exact ⟨by omega, by omega, hcount, h.accounted.bound⟩

/-- An edit that gives an objective a second term leaves the four entries of the old one behind. -/
theorem dead_accounted_sum : ∃ answer log,
    (parse ['x'] {}).reparse ⟨⟨1, 1⟩, ['+', 'y']⟩ = .ok (answer, log) ∧
      answer.strategy = .statement ∧ answer.parse.tree.unreachable = [1, 2, 3, 4] ∧
      answer.parse.tree.allocated - answer.parse.tree.nodeCount = 4 := by
  have hr : (parse ['x'] {}).reparse ⟨⟨1, 1⟩, ['+', 'y']⟩ =
      .ok ((parse ['x'] {}).reparseText ⟨⟨1, 1⟩, ['+', 'y']⟩ ['x', '+', 'y']) := rfl
  have hanswer : ((parse ['x'] {}).reparseText ⟨⟨1, 1⟩, ['+', 'y']⟩
      ['x', '+', 'y']).1.strategy = .statement ∧ ((parse ['x'] {}).reparseText ⟨⟨1, 1⟩, ['+', 'y']⟩
      ['x', '+', 'y']).1.parse.tree.unreachable = [1, 2, 3, 4] := by decide +kernel
  generalize (parse ['x'] {}).reparseText ⟨⟨1, 1⟩, ['+', 'y']⟩ ['x', '+', 'y'] = r at hr hanswer
  obtain ⟨answer, log⟩ := r
  obtain ⟨hstrategy, hdead⟩ := hanswer
  have h := dead_accounted (.step (@Parse.Reachable.start ['x'] {}) (by decide) hr)
  refine ⟨answer, log, hr, hstrategy, hdead, ?_⟩
  rw [h.2.1, hdead]
  rfl

end LpFormat
