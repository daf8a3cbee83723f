import LpFormat.Proofs.Tree.Walk

/-!
# Equal trees

Two trees are compared by the flat lists of kinds, spans and numbers of children that walks over
them give. The number of children tells where the nodes below a node end, so these lists determine
the trees up to ids.

* `Node.Alike`: equality of nodes but for ids, by recursion;
* `Node.Alike.shapes_eq`, **`Node.alike_of_shapes_append`**: alike nodes have equal shapes, and the
  shapes at the start of a list determine the node;
* `Tree.same_iff`: equal trees are trees with equal texts and alike roots;
* `Tree.stream`, `Parse.Reachable.stream_eq`: the shapes that a walk meets;
* **`same_structural`**: the comparison of trees.
-/

namespace LpFormat

namespace Node

mutual

/-- The nodes have the same kind and the same span, and as many children, which are alike. -/
def Alike : Node → Node → Prop
  | ⟨_, kind, span, children⟩, ⟨_, kind', span', children'⟩ =>
    kind = kind' ∧ span = span' ∧ children.length = children'.length ∧ AlikeAll children children'

/-- Of some nodes and as many others, each is like the other in its place. -/
def AlikeAll : List Node → List Node → Prop
  | [], [] => True
  | m :: ms, n :: ns => m.Alike n ∧ AlikeAll ms ns
  | _, _ => False

end

mutual

theorem Alike.shapes_eq {m n : Node} (h : m.Alike n) : m.shapes = n.shapes := by
  match m, n with
  | ⟨_, kind, span, children⟩, ⟨_, kind', span', children'⟩ =>
    obtain ⟨rfl, rfl, hlength, hall⟩ := h
    rw [Node.shapes_eq, Node.shapes_eq, hall.shapes_eq, hlength]

theorem AlikeAll.shapes_eq {ms ns : List Node} (h : AlikeAll ms ns) :
    ms.flatMap shapes = ns.flatMap shapes := by
  match ms, ns with
  | [], [] => rfl
  | m :: ms, n :: ns =>
    obtain ⟨hm, hms⟩ := h
    rw [List.flatMap_cons, List.flatMap_cons, hm.shapes_eq, hms.shapes_eq]

end

mutual

/-- **The shapes of a node at the start of a list determine it** and what is behind them. -/
theorem alike_of_shapes_append {m n : Node} {xs ys : List (Kind × Span × Nat)}
    (h : m.shapes ++ xs = n.shapes ++ ys) : m.Alike n ∧ xs = ys := by
  match m, n with
  | ⟨_, kind, span, children⟩, ⟨_, kind', span', children'⟩ =>
    rw [Node.shapes_eq, Node.shapes_eq, List.cons_append, List.cons_append, List.cons.injEq,
      Prod.mk.injEq, Prod.mk.injEq] at h
    obtain ⟨⟨hkind, hspan, hlength⟩, h⟩ := h
    obtain ⟨hall, hrest⟩ := alikeAll_of_shapes_append hlength h
    exact ⟨⟨hkind, hspan, hlength, hall⟩, hrest⟩

theorem alikeAll_of_shapes_append {ms ns : List Node} {xs ys : List (Kind × Span × Nat)}
    (hlength : ms.length = ns.length) (h : ms.flatMap shapes ++ xs = ns.flatMap shapes ++ ys) :
    AlikeAll ms ns ∧ xs = ys := by
  match ms, ns with
  | [], [] => exact ⟨trivial, h⟩
  | m :: ms, n :: ns =>
    rw [List.flatMap_cons, List.flatMap_cons, List.append_assoc, List.append_assoc] at h
    obtain ⟨hm, h⟩ := alike_of_shapes_append h
    obtain ⟨hms, hrest⟩ := alikeAll_of_shapes_append (Nat.succ.inj hlength) h
    exact ⟨⟨hm, hms⟩, hrest⟩

end

theorem shapes_eq_iff {m n : Node} : m.shapes = n.shapes ↔ m.Alike n :=
  ⟨fun h => (alike_of_shapes_append (congrArg (· ++ []) h)).1, Alike.shapes_eq⟩

end Node

namespace Tree

theorem same_iff_shapes {a b : Tree} : a.same b = true ↔ a.text = b.text ∧ a.shapes = b.shapes := by
  rw [same, Bool.and_eq_true, beq_iff_eq, beq_iff_eq]

/-- Equal trees are trees with equal texts and alike roots. -/
theorem same_iff {a b : Tree} : a.same b = true ↔ a.text = b.text ∧ a.root.Alike b.root := by
  rw [same_iff_shapes]
  exact and_congr_right fun _ => Node.shapes_eq_iff

theorem same_equivalence : Equivalence fun a b : Tree => a.same b = true where
  refl a := same_iff_shapes.2 ⟨rfl, rfl⟩
  symm h := same_iff_shapes.2 ((same_iff_shapes.1 h).imp Eq.symm Eq.symm)
  trans h h' := by
    obtain ⟨htext, hshapes⟩ := same_iff_shapes.1 h
    obtain ⟨htext', hshapes'⟩ := same_iff_shapes.1 h'
    exact same_iff_shapes.2 ⟨htext.trans htext', hshapes.trans hshapes'⟩

/-- Kind, span and number of children of every node that a walk over the tree enters. -/
def stream (t : Tree) : List (Kind × Span × Nat) :=
  (((Walk.ofCursor t.cursor).run fun _ => false).filterMap Visit.entered?).map fun c =>
    (c.focus.kind, c.focus.span, c.focus.children.length)

end Tree

theorem Parse.Reachable.stream_eq {text : Text} {options : Options} {p : Parse}
    (h : Parse.Reachable text options p) : p.tree.stream = p.tree.shapes := by
  have hrun := Walk.run_ofCursor (c := p.tree.cursor) (fun _ => false) h.faithful.ids
  rw [Walk.skipsAfter_none] at hrun
  rw [Tree.stream, hrun, Cursor.traverse, Cursor.entered_traverseFrom, Tree.shapes,
    ← Cursor.map_focus_descendantsFrom [] p.tree.root, List.map_map]
  rfl

/-- **Trees are equal exactly if their texts are and their roots are alike**, whatever their ids. In
the trees of results the comparison reads what walks over them meet. -/
theorem same_structural :
    (∀ a b : Tree, a.same b = true ↔ a.text = b.text ∧ a.root.Alike b.root) ∧
      (Equivalence fun a b : Tree => a.same b = true) ∧
      ∀ {text : Text} {options : Options} {p : Parse}, Parse.Reachable text options p →
        p.tree.stream = p.tree.shapes :=
  ⟨fun _ _ => Tree.same_iff, Tree.same_equivalence, fun h => h.stream_eq⟩

/-- An edit that makes a name longer by a term gives the tree of the new text with other ids. -/
theorem same_structural_term : ∃ answer log,
    (parse ['x', '\n'] {}).reparse ⟨⟨1, 1⟩, ['+', 'y']⟩ = .ok (answer, log) ∧
      answer.parse.tree.dead = 4 ∧
      answer.parse.tree.root.descendants.map Node.id ≠
        (parse ['x', '+', 'y', '\n'] {}).tree.root.descendants.map Node.id ∧
      answer.parse.tree.root.Alike (parse ['x', '+', 'y', '\n'] {}).tree.root ∧
      answer.parse.tree.stream = answer.parse.tree.shapes := by
  have hr : (parse ['x', '\n'] {}).reparse ⟨⟨1, 1⟩, ['+', 'y']⟩ =
      .ok ((parse ['x', '\n'] {}).reparseText ⟨⟨1, 1⟩, ['+', 'y']⟩ ['x', '+', 'y', '\n']) := rfl
  have hsame : ((parse ['x', '\n'] {}).reparseText ⟨⟨1, 1⟩, ['+', 'y']⟩
      ['x', '+', 'y', '\n']).1.parse.tree.same (parse ['x', '+', 'y', '\n'] {}).tree = true := by
    decide +kernel
  refine ⟨_, _, hr, by decide +kernel, by decide +kernel,
    ((same_structural.1 _ _).1 hsame).2,
    same_structural.2.2 (.step (@Parse.Reachable.start ['x', '\n'] {}) ?_ hr)⟩
  decide

end LpFormat
