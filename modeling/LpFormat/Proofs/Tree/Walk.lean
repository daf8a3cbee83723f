import LpFormat.Proofs.Reparse.Invariant
import LpFormat.Proofs.Tree.Cursors
import LpFormat.Tree.Walk

/-!
# Walking is traversing

A walk keeps one step and looks up the one after it. It makes the steps of the traversal that goes
down and up by recursion, whatever is skipped on the way.

* `Cursor.traverse`, `Cursor.traverse_eq`: the traversal by recursion;
* `Walk.skipsAfter`: skipping what is below the nodes that are chosen;
* `Walk.onward`, `Walk.after?_enter`, `Walk.after?_leave`, `Walk.skip_after?_enter`: one step;
* **`Walk.run_enter`**: from entering a node to leaving it, and on from there;
* `Cursor.entered_traverseFrom`, `Cursor.left_traverseFrom`, `Cursor.cursor_mem_of_traverseFrom`:
  which nodes are met; `Cursor.nodup_ids`: ids below a node.
-/

namespace LpFormat

namespace Visit

/-- The node that is entered. -/
def entered? : Visit → Option Cursor
  | enter c => some c
  | leave _ => none

/-- The node that is left. -/
def left? : Visit → Option Cursor
  | enter _ => none
  | leave c => some c

end Visit

namespace Cursor

/-! ## Traversals -/

mutual

/-- Enters a node at the end of a path, goes through its children unless it is chosen, and leaves
it. -/
def traverseFrom (chosen : Cursor → Bool) (path : List Crumb) : Node → List Visit
  | ⟨id, kind, span, children⟩ =>
    .enter ⟨⟨id, kind, span, children⟩, path⟩ ::
      ((if chosen ⟨⟨id, kind, span, children⟩, path⟩ then []
        else traverseFromAll chosen id kind span path [] children) ++
          [.leave ⟨⟨id, kind, span, children⟩, path⟩])

/-- Goes through some nodes that follow others under one node. -/
def traverseFromAll (chosen : Cursor → Bool) (id : Nat) (kind : Kind) (span : Span)
    (path : List Crumb) : List Node → List Node → List Visit
  | _, [] => []
  | before, n :: ns =>
    traverseFrom chosen (⟨id, kind, span, before, ns⟩ :: path) n ++
      traverseFromAll chosen id kind span path (n :: before) ns

end

/-- The traversal of a node and all below it. -/
def traverse (chosen : Cursor → Bool) (c : Cursor) : List Visit :=
  traverseFrom chosen c.path c.focus

section Traverse

variable (chosen : Cursor → Bool) (id : Nat) (kind : Kind) (span : Span) (path : List Crumb)

theorem traverseFromAll_eq (before ns : List Node) :
    traverseFromAll chosen id kind span path before ns =
      (placeAll id kind span path before ns).flatMap (traverse chosen) := by
  induction ns generalizing before with
  | nil => rfl
  | cons n ns ih =>
    rw [traverseFromAll, placeAll, List.flatMap_cons, ih]
    rfl

/-- A traversal enters the node, traverses its children in order unless it is chosen, and leaves
it. -/
theorem traverse_eq (c : Cursor) :
    c.traverse chosen =
      .enter c ::
        ((if chosen c then [] else c.children.flatMap (traverse chosen)) ++ [.leave c]) := by
  obtain ⟨⟨id, kind, span, children⟩, path⟩ := c
  rw [traverse, traverseFrom, traverseFromAll_eq]
  rfl

theorem getLast?_traverse (c : Cursor) : (c.traverse chosen).getLast? = some (.leave c) := by
  rw [traverse_eq, ← List.cons_append, List.getLast?_append_of_ne_nil _ (List.cons_ne_nil _ _)]
  rfl

mutual

theorem cursor_mem_of_traverseFrom {path : List Crumb} {n : Node} {v : Visit}
    (h : v ∈ traverseFrom chosen path n) : v.cursor ∈ descendantsFrom path n := by
  match n with
  | ⟨id, kind, span, children⟩ =>
    rw [traverseFrom] at h
    rw [descendantsFrom]
    rcases List.mem_cons.1 h with rfl | h
    · exact List.mem_cons_self
    · rcases List.mem_append.1 h with h | h
      · split_ifs at h
        · cases h
        · exact List.mem_cons_of_mem _ (cursor_mem_of_traverseFromAll h)
      · obtain rfl := List.mem_singleton.1 h
        exact List.mem_cons_self

theorem cursor_mem_of_traverseFromAll {id : Nat} {kind : Kind} {span : Span} {path : List Crumb}
    {before ns : List Node} {v : Visit}
    (h : v ∈ traverseFromAll chosen id kind span path before ns) :
    v.cursor ∈ descendantsFromAll id kind span path before ns := by
  match ns with
  | [] => cases h
  | n :: ns =>
    rw [traverseFromAll] at h
    rw [descendantsFromAll]
    exact (List.mem_append.1 h).elim
      (fun h => List.mem_append_left _ (cursor_mem_of_traverseFrom h))
      (fun h => List.mem_append_right _ (cursor_mem_of_traverseFromAll h))

end

end Traverse

mutual

/-- Where nothing is chosen, every node is entered in order. -/
theorem entered_traverseFrom (path : List Crumb) (n : Node) :
    (traverseFrom (fun _ => false) path n).filterMap Visit.entered? = descendantsFrom path n := by
  match n with
  | ⟨id, kind, span, children⟩ =>
    rw [traverseFrom, descendantsFrom, if_neg Bool.false_ne_true, List.filterMap_cons,
      List.filterMap_append, entered_traverseFromAll]
    exact congrArg _ (List.append_nil _)

theorem entered_traverseFromAll (id : Nat) (kind : Kind) (span : Span) (path : List Crumb)
    (before ns : List Node) :
    (traverseFromAll (fun _ => false) id kind span path before ns).filterMap Visit.entered? =
      descendantsFromAll id kind span path before ns := by
  match ns with
  | [] => rfl
  | n :: ns =>
    rw [traverseFromAll, descendantsFromAll, List.filterMap_append, entered_traverseFrom,
      entered_traverseFromAll]

end

mutual

/-- Where nothing is chosen, the nodes that are left are those that are entered. -/
theorem left_traverseFrom (path : List Crumb) (n : Node) :
    ((traverseFrom (fun _ => false) path n).filterMap Visit.left?).Perm
      (descendantsFrom path n) := by
  match n with
  | ⟨id, kind, span, children⟩ =>
    rw [traverseFrom, descendantsFrom, if_neg Bool.false_ne_true, List.filterMap_cons,
      List.filterMap_append]
    exact (List.perm_append_singleton _ _).trans
      ((left_traverseFromAll id kind span path [] children).cons _)

theorem left_traverseFromAll (id : Nat) (kind : Kind) (span : Span) (path : List Crumb)
    (before ns : List Node) :
    ((traverseFromAll (fun _ => false) id kind span path before ns).filterMap Visit.left?).Perm
      (descendantsFromAll id kind span path before ns) := by
  match ns with
  | [] => exact .nil
  | n :: ns =>
    rw [traverseFromAll, descendantsFromAll, List.filterMap_append]
    exact (left_traverseFrom _ n).append (left_traverseFromAll id kind span path (n :: before) ns)

end

end Cursor

namespace Walk

/-! ## Steps -/

/-- Skipping right after the nodes that are chosen are entered. -/
def skipsAfter (chosen : Cursor → Bool) : Visit → Bool
  | .enter c => chosen c
  | .leave _ => false

theorem skipsAfter_none : skipsAfter (fun _ => false) = fun _ => false := by
  funext v
  cases v <;> rfl

theorem run_none (skips : Visit → Bool) (start : Nat) : run skips ⟨start, none⟩ = [] := by
  rw [run]
  rfl

theorem run_some (skips : Visit → Bool) (start : Nat) (v : Visit) :
    run skips ⟨start, some v⟩ =
      v :: run skips
        (if skips v then skip ⟨start, after? start v⟩ else ⟨start, after? start v⟩) := by
  rw [run]
  rfl

/-- Skipping right after a node is entered is leaving it, whether it has children or not. -/
theorem skip_after?_enter (start : Nat) (c : Cursor) :
    skip ⟨start, after? start (.enter c)⟩ = ⟨start, some (.leave c)⟩ := by
  rw [after?]
  cases hchild : c.childAt? 0 with
  | none => rfl
  | some d =>
    have hparent : d.parent? = some c := (Cursor.childAt?_eq_some hchild).2.1
    change (⟨start, some (.leave (d.parent?.getD d))⟩ : Walk) = _
    rw [hparent, Option.getD_some]

/-- The step behind some children of a node: to the next child, or out of the node. -/
def onward (id : Nat) (kind : Kind) (span : Span) (path : List Crumb) (before : List Node) :
    List Node → Visit
  | [] => .leave ⟨⟨id, kind, span, before.reverse⟩, path⟩
  | n :: ns => .enter ⟨n, ⟨id, kind, span, before, ns⟩ :: path⟩

section Children

variable {start id : Nat} {kind : Kind} {span : Span} {path : List Crumb}

theorem after?_enter (children : List Node) :
    after? start (.enter ⟨⟨id, kind, span, children⟩, path⟩) =
      some (onward id kind span path [] children) := by
  cases children <;> rfl

theorem after?_leave {n : Node} (hn : n.id ≠ start) (before ns : List Node) :
    after? start (.leave ⟨n, ⟨id, kind, span, before, ns⟩ :: path⟩) =
      some (onward id kind span path (n :: before) ns) := by
  rw [after?, if_neg hn]
  cases ns with
  | nil =>
    rw [onward, List.reverse_cons]
    rfl
  | cons m ms => rfl

end Children

/-! ## Runs -/

section Run

variable {chosen : Cursor → Bool} (start : Nat) (c : Cursor)

theorem run_enter_chosen (h : chosen c = true) :
    run (skipsAfter chosen) ⟨start, some (.enter c)⟩ =
      .enter c :: run (skipsAfter chosen) ⟨start, some (.leave c)⟩ := by
  have hskips : skipsAfter chosen (.enter c) = true := h
  rw [run_some, if_pos hskips, skip_after?_enter]

theorem run_enter_open (h : ¬ chosen c = true) :
    run (skipsAfter chosen) ⟨start, some (.enter c)⟩ =
      .enter c :: run (skipsAfter chosen) ⟨start, after? start (.enter c)⟩ := by
  have hskips : ¬ skipsAfter chosen (.enter c) = true := h
  rw [run_some, if_neg hskips]

theorem run_leave : run (skipsAfter chosen) ⟨start, some (.leave c)⟩ =
    .leave c :: run (skipsAfter chosen) ⟨start, after? start (.leave c)⟩ :=
  run_some _ start (.leave c)

end Run

mutual

/-- **From entering a node to leaving it** a walk makes the steps of its traversal, and goes on from
there. The walk must not have begun below the node. -/
theorem run_enter (chosen : Cursor → Bool) {start : Nat} (path : List Crumb) {n : Node}
    (hstart : ∀ m ∈ n.children.flatMap Node.descendants, m.id ≠ start) :
    run (skipsAfter chosen) ⟨start, some (.enter ⟨n, path⟩)⟩ =
      Cursor.traverseFrom chosen path n ++
        run (skipsAfter chosen) ⟨start, after? start (.leave ⟨n, path⟩)⟩ := by
  match n with
  | ⟨id, kind, span, children⟩ =>
    rw [Cursor.traverseFrom, List.cons_append, List.append_assoc, List.singleton_append,
      ← run_leave]
    by_cases hc : chosen ⟨⟨id, kind, span, children⟩, path⟩ = true
    · rw [run_enter_chosen start _ hc, if_pos hc, List.nil_append]
    · rw [run_enter_open start _ hc, if_neg hc, after?_enter,
        run_onward chosen id kind span path [] hstart]
      rfl

/-- From one of the children of a node to leaving the node. -/
theorem run_onward (chosen : Cursor → Bool) {start : Nat} (id : Nat) (kind : Kind) (span : Span)
    (path : List Crumb) (before : List Node) {ns : List Node}
    (hstart : ∀ m ∈ ns.flatMap Node.descendants, m.id ≠ start) :
    run (skipsAfter chosen) ⟨start, some (onward id kind span path before ns)⟩ =
      Cursor.traverseFromAll chosen id kind span path before ns ++
        run (skipsAfter chosen)
          ⟨start, some (.leave ⟨⟨id, kind, span, before.reverse ++ ns⟩, path⟩)⟩ := by
  match ns with
  | [] =>
    rw [List.append_nil]
    rfl
  | n :: ns =>
    rw [List.flatMap_cons] at hstart
    obtain ⟨hn, hns⟩ := List.forall_mem_append.1 hstart
    rw [Node.descendants_eq] at hn
    obtain ⟨hself, hbelow⟩ := List.forall_mem_cons.1 hn
    rw [onward, run_enter chosen _ hbelow, after?_leave hself,
      run_onward chosen id kind span path (n :: before) hns, Cursor.traverseFromAll,
      List.append_assoc, List.reverse_cons, List.append_assoc, List.singleton_append]

end

/-- **A walk is the traversal of the node it begins with**, whose id no node below it has. -/
theorem run_ofCursor (chosen : Cursor → Bool) {c : Cursor}
    (hids : (c.focus.descendants.map Node.id).Nodup) :
    (ofCursor c).run (skipsAfter chosen) = c.traverse chosen := by
  rw [Node.descendants_eq, List.map_cons, List.nodup_cons] at hids
  have hbelow : ∀ m ∈ c.focus.children.flatMap Node.descendants, m.id ≠ c.focus.id :=
    fun m hm heq => hids.1 (heq ▸ List.mem_map_of_mem hm)
  have hend : after? c.focus.id (.leave c) = none := if_pos rfl
  rw [ofCursor, run_enter chosen c.path hbelow, hend, run_none, List.append_nil, Cursor.traverse]

end Walk

/-- The ids below a node of a tree are distinct if all ids of the tree are. -/
theorem Cursor.nodup_ids {c : Cursor} (h : (c.root.descendants.map Node.id).Nodup) :
    (c.focus.descendants.map Node.id).Nodup := by
  have hids := Cursor.root_ids c.path c.focus
  change c.root.descendants.map Node.id = _ at hids
  rw [hids] at h
  exact (List.nodup_append.1 (List.nodup_append.1 h).1).2.1

end LpFormat
