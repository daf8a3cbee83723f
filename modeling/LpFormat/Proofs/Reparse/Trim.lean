import LpFormat.Proofs.Parsing.Trim
import LpFormat.Proofs.Reparse.Invariant
import LpFormat.Proofs.Reparse.Statement

/-!
# Trivia lie inside the nodes of a tree

* `Rule.document_trimmed`: the forest of a document is trimmed;
* `Node.Trimmed`: a node that begins and ends with a significant token,
  `Node.Fitted.trimmed`;
* **`nodes_trimmed`**: so does every node of every result but the root.
-/

namespace LpFormat

theorem Rule.document_trimmed {i : Input} (hi : i.Proper) {f : List Skeleton}
    (he : (document i).output.events =
      .start .document :: (Skeleton.eventsAll f ++ [.finish])) : ∀ s ∈ f, s.Trimmed := by
  have hspec := spec_contents (P := fun _ => True) i hi (Nat.le_refl i.taken) trivial
  obtain ⟨xs, g, ht, hg⟩ := hspec.trace
  have hevents : Skeleton.eventsAll f =
      Skeleton.eventsAll (g ++ Skeleton.trivia (contents i).rest.tokens) := by
    rw [document_run hi] at he
    rw [Skeleton.eventsAll_append, Skeleton.eventsAll_trivia, ← hg]
    exact (List.append_cancel_right (List.cons.inj he).2).symm
  rw [Skeleton.eventsAll_injective hevents]
  exact List.forall_mem_append.2 ⟨ht.trimmed, Skeleton.trimmed_trivia _⟩

/-- The first and the last leaf of a node are there, and neither is trivia. -/
structure Node.Trimmed (n : Node) : Prop where
  first : ∃ l, n.leaves.head? = some l ∧ n.firstLeaf? = some l ∧ l.kind.isTrivia = false
  last : ∃ l, n.leaves.getLast? = some l ∧ n.lastLeaf? = some l ∧ l.kind.isTrivia = false

namespace Node.Fitted

variable {n : Node}

theorem trimmed (h : n.Fitted) (hk : n.kind.isNode = true) (hs : n.skeleton.Trimmed) :
    n.Trimmed := by
  have hleaves := h.leavesOf_eq
  rw [skeleton_of_isNode hk] at hs hleaves
  rw [Skeleton.events, leavesOf_enclosed] at hleaves
  cases hs with
  | node first last _ =>
    rw [hleaves] at first last
    have hne := h.leaves_ne
    refine ⟨⟨n.leaves.head hne, List.head?_eq_some_head hne, ?_, ?_⟩,
      ⟨n.leaves.getLast hne, List.getLast?_eq_some_getLast hne, ?_, ?_⟩⟩
    · rw [h.firstLeaf?_eq, List.head?_eq_some_head hne]
    · refine first ((n.leaves.head hne).kind, (n.leaves.head hne).span) ?_
      rw [List.head?_map, List.head?_eq_some_head hne]
      rfl
    · rw [h.lastLeaf?_eq, List.getLast?_eq_some_getLast hne]
    · refine last ((n.leaves.getLast hne).kind, (n.leaves.getLast hne).span) ?_
      rw [List.getLast?_map, List.getLast?_eq_some_getLast hne]
      rfl

theorem trimmed_child (h : n.Fitted) (hs : n.skeleton.Trimmed) :
    ∀ m ∈ n.children, m.skeleton.Trimmed := by
  intro m hm
  cases h with
  | token _ _ => cases hm
  | @node id kind span children hk _ _ _ =>
    rw [skeleton_of_isNode hk] at hs
    cases hs with
    | node _ _ below => exact below _ (List.mem_map_of_mem hm)

end Node.Fitted

/-- **Every node of a result but the root begins and ends with a significant token**, however many
edits led to it. -/
theorem nodes_trimmed {text : Text} {options : Options} {p : Parse}
    (h : Parse.Reachable text options p) {path : List Nat} {c : Cursor}
    (hc : p.tree.at? path = some c) (hpath : path ≠ []) (hk : c.focus.kind.isToken = false) :
    c.focus.Trimmed := by
  obtain ⟨f, he, hroot⟩ := h.faithful.tree
  have htrimmed := Rule.document_trimmed (Input.proper_ofText p.text 0 0 .statementStart) he
  obtain ⟨i, path, rfl⟩ := List.exists_cons_of_ne_nil hpath
  rw [Tree.at?, Cursor.follow?_cons, Option.bind_eq_some_iff] at hc
  obtain ⟨d, hd, hc⟩ := hc
  have hmem : d.focus ∈ p.tree.root.children := Cursor.childAt?_mem hd
  have htop : d.focus.skeleton.Trimmed :=
    htrimmed _ (hroot.skeletons ▸ List.mem_map_of_mem hmem)
  obtain ⟨hfit, hskeleton⟩ := Cursor.follow?_of_children
    (P := fun n => n.Fitted ∧ n.skeleton.Trimmed)
    (fun n hn m hm => ⟨hn.1.children m hm, hn.1.trimmed_child hn.2 m hm⟩)
    ⟨hroot.tiled.fitted d.focus hmem, htop⟩ hc
  exact hfit.trimmed (by simpa [Kind.isToken] using hk) hskeleton

/-- The name between two blanks, after an edit that renames it. -/
theorem nodes_trimmed_rename : ∃ answer log c,
    (parse [' ', 'x', ' '] {}).reparse ⟨⟨1, 2⟩, ['y']⟩ = .ok (answer, log) ∧
      answer.parse.tree.at? [1] = some c ∧ c.focus.Trimmed := by
  have hr : (parse [' ', 'x', ' '] {}).reparse ⟨⟨1, 2⟩, ['y']⟩ =
      .ok ((parse [' ', 'x', ' '] {}).reparseText ⟨⟨1, 2⟩, ['y']⟩ [' ', 'y', ' ']) := rfl
  have hat : ((((parse [' ', 'x', ' '] {}).reparseText ⟨⟨1, 2⟩, ['y']⟩
      [' ', 'y', ' ']).1.parse.tree.at? [1]).any fun c => !c.focus.kind.isToken) = true := by
    decide +kernel
  obtain ⟨c, hc, hk⟩ := (Option.any_eq_true _ _).1 hat
  refine ⟨_, _, c, hr, hc, nodes_trimmed (.step (@Parse.Reachable.start [' ', 'x', ' '] {}) ?_ hr) hc
    (List.cons_ne_nil _ _) (by simpa using hk)⟩
  decide

end LpFormat
