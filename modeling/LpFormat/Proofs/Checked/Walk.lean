import LpFormat.Proofs.Checked.Neighbours
import LpFormat.Proofs.Tree.Walk

/-!
# Walking through an arena

In an arena a walk keeps the id of the node it is about to enter or to leave, and reads from the cells
where it goes on. Nothing in the cells says that it comes to an end, so the steps are counted.

* `Arena.Visit`, `Arena.after`, `Arena.skip`, `Arena.walk`: the steps of a walk;
* `Walk.root_of_after?`: a walk stays in its tree; `Walk.remaining_ofCursor_le`: its steps are no more
  than two for each node;
* `Arena.after_eq`, `Arena.skip_eq`: one step; **`Arena.walk_eq`**: a whole walk in an arena makes the
  steps it makes in the tree that is stored;
* **`walk_traverses`**: the walks through the tree of every result, and through its arena.
-/

namespace LpFormat

namespace Arena

/-! ## Walks in an arena -/

/-- A step of a walk: nodes are named by their ids. -/
inductive Visit where
  | enter (id : Nat)
  | leave (id : Nat)
deriving DecidableEq

/-- The step after another: down to the first child, else on to the next sibling, else up. The walk
ends when its first node is left. -/
def after (a : Arena) (start : Nat) : Visit → Checked (Option Visit)
  | .enter id => do
    match ← a.child id 0 with
    | some child => return some (.enter child)
    | none => return some (.leave id)
  | .leave id =>
    if id = start then return none
    else do
      match ← a.sibling .forward id with
      | some sibling => return some (.enter sibling)
      | none =>
        let cell ← Checked.get a.cells id
        return cell.parent.map .leave

/-- Skips what was about to be entered: the walk goes on by leaving the node above, or the node
itself if it is the root. -/
def skip (a : Arena) : Option Visit → Checked (Option Visit)
  | some (.enter id) => do
    let cell ← Checked.get a.cells id
    return some (.leave (cell.parent.getD id))
  | pending => return pending

/-- All steps from the one to come on, where `skips` says after which steps the walk skips. -/
def walk (a : Arena) (skips : Visit → Bool) (start : Nat) : Nat → Option Visit → Checked (List Visit)
  | _, none => return []
  | 0, some _ => .error .endless
  | rounds + 1, some v => do
    let next ← a.after start v
    let next ← if skips v then a.skip next else pure next
    let steps ← a.walk skips start rounds next
    return v :: steps

/-- Skipping right after the nodes that are chosen are entered. -/
def skipsAfter (chosen : Nat → Bool) : Visit → Bool
  | .enter id => chosen id
  | .leave _ => false

end Arena

/-- A step of a walk in a tree, in the arena of the tree. -/
def Visit.filed : Visit → Arena.Visit
  | .enter c => .enter c.focus.id
  | .leave c => .leave c.focus.id

namespace Walk

/-! ## Walks in a tree -/

/-- **A walk stays in its tree.** -/
theorem root_of_after? {start : Nat} {v w : Visit} (h : after? start v = some w) :
    w.cursor.root = v.cursor.root := by
  cases v with
  | enter c =>
    rw [after?] at h
    cases hchild : c.childAt? 0 with
    | none =>
      rw [hchild] at h
      cases h
      rfl
    | some d =>
      rw [hchild] at h
      cases h
      exact Cursor.root_of_childAt? hchild
  | leave c =>
    obtain ⟨n, path⟩ := c
    rw [after?] at h
    split_ifs at h
    cases path with
    | nil => cases h
    | cons k ks =>
      rcases Direction.forward.step?_cases (c := ⟨n, k :: ks⟩) rfl with
        ⟨_, hnone⟩ | ⟨e, l, hsome, hroot, _⟩
      · rw [show (⟨n, k :: ks⟩ : Cursor).next? = none from hnone] at h
        cases h
        rfl
      · rw [show (⟨n, k :: ks⟩ : Cursor).next? = some e from hsome] at h
        cases h
        exact hroot

/-- The steps to come, counted to the root, are two for each node of the tree. -/
theorem stepsFrom_enter_le (c : Cursor) : stepsFrom (.enter c) ≤ 2 * c.root.size := by
  obtain ⟨n, path⟩ := c
  induction path generalizing n with
  | nil => exact Nat.le_refl _
  | cons k ks ih =>
    have hsize := Direction.forward.size_side_lt k n
    have habove := ih (k.plug n)
    change Node.sizeAll k.after + n.size < _ at hsize
    change 2 * (k.plug n).size + stepsAbove ks ≤ _ at habove
    change 2 * n.size + (1 + 2 * Node.sizeAll k.after + stepsAbove ks) ≤
      2 * (⟨k.plug n, ks⟩ : Cursor).root.size
    omega

end Walk

namespace Arena

variable {a : Arena}

/-! ## One step -/

/-- The node above, as the cell of a node has it. -/
theorem parent_eq {c : Cursor} (h : ∀ x ∈ c.root.entries none 0, a.Has x) :
    ∃ cell, a.cells[c.focus.id]? = some cell ∧ cell.parent = c.parent?.map fun p => p.focus.id := by
  obtain ⟨start, hcell⟩ := exists_cell h
  exact ⟨_, hcell, rfl⟩

theorem after_eq (start : Nat) {v : LpFormat.Visit}
    (h : ∀ x ∈ v.cursor.root.entries none 0, a.Has x) :
    a.after start v.filed = .ok ((Walk.after? start v).map Visit.filed) := by
  cases v with
  | enter c =>
    change ∀ x ∈ c.root.entries none 0, a.Has x at h
    rw [Visit.filed, after, child_eq_map h, Checked.ok_bind, Walk.after?]
    cases c.childAt? 0 <;> rfl
  | leave c =>
    change ∀ x ∈ c.root.entries none 0, a.Has x at h
    rw [Visit.filed, after, Walk.after?]
    split_ifs with hstart
    · rfl
    · obtain ⟨cell, hcell, hparent⟩ := parent_eq h
      rw [sibling_eq h, Checked.ok_bind]
      rw [show c.next? = Direction.forward.step? c from rfl]
      cases Direction.forward.step? c with
      | some e => rfl
      | none =>
        simp only [Option.map_none]
        rw [Checked.get_eq hcell, Checked.ok_bind, hparent]
        cases c.parent? <;> rfl

theorem skip_eq (start : Nat) {pending : Option LpFormat.Visit}
    (h : ∀ v ∈ pending, ∀ x ∈ v.cursor.root.entries none 0, a.Has x) :
    a.skip (pending.map Visit.filed) =
      .ok ((Walk.skip ⟨start, pending⟩).pending.map Visit.filed) := by
  match pending with
  | none => rfl
  | some (.leave c) => rfl
  | some (.enter c) =>
    obtain ⟨cell, hcell, hparent⟩ := @parent_eq a c (h (.enter c) rfl)
    rw [Option.map_some, Visit.filed, skip, Checked.get_eq hcell, Checked.ok_bind, hparent]
    change _ = Except.ok (some (Arena.Visit.leave (c.parent?.getD c).focus.id))
    cases c.parent? <;> rfl

end Arena

namespace Walk

theorem start_skip (w : Walk) : w.skip.start = w.start := by
  obtain ⟨start, pending⟩ := w
  match pending with
  | none => rfl
  | some (.leave c) => rfl
  | some (.enter c) => rfl

/-- Skipping stays in the tree. -/
theorem root_of_skip {w : Walk} {r : Node} (h : ∀ v ∈ w.pending, v.cursor.root = r) :
    ∀ v ∈ w.skip.pending, v.cursor.root = r := by
  obtain ⟨start, pending⟩ := w
  match pending with
  | none => exact h
  | some (.leave c) => exact h
  | some (.enter c) =>
    rintro v ⟨⟩
    obtain ⟨n, path⟩ := c
    cases path with
    | nil => exact h (.enter ⟨n, []⟩) rfl
    | cons k ks => exact h (.enter ⟨n, k :: ks⟩) rfl

end Walk

namespace Arena

variable {a : Arena}

/-! ## Whole walks -/

/-- **A walk in an arena makes the steps it makes in the tree**, in as many rounds as steps remain. -/
theorem walk_eq {r : Node} (h : ∀ x ∈ r.entries none 0, a.Has x) (skips : Visit → Bool) {w : Walk}
    (hw : ∀ v ∈ w.pending, v.cursor.root = r) {rounds : Nat} (hr : w.remaining ≤ rounds) :
    a.walk skips w.start rounds (w.pending.map Visit.filed) =
      .ok ((w.run fun v => skips v.filed).map Visit.filed) := by
  induction rounds generalizing w with
  | zero =>
    obtain ⟨start, pending⟩ := w
    cases pending with
    | none => rw [Walk.run_none]; rfl
    | some v => exact absurd (Walk.stepsFrom_pos v) (Nat.not_lt.2 hr)
  | succ rounds ih =>
    obtain ⟨start, pending⟩ := w
    cases pending with
    | none => rw [Walk.run_none]; rfl
    | some v =>
      have hv : v.cursor.root = r := hw v rfl
      -- the walk after the step
      have hlt : Walk.remaining ⟨start, Walk.after? start v⟩ < Walk.remaining ⟨start, some v⟩ :=
        Walk.remaining_next_lt rfl
      have hnext : ∀ u ∈ Walk.after? start v, u.cursor.root = r := fun u hu =>
        (Walk.root_of_after? hu).trans hv
      rw [Option.map_some, walk, after_eq start (hv.symm ▸ h), Checked.ok_bind, Walk.run_some]
      split_ifs with hskips
      · have hle := Walk.remaining_skip_le ⟨start, Walk.after? start v⟩
        have hrest := ih (w := Walk.skip ⟨start, Walk.after? start v⟩) (Walk.root_of_skip hnext)
          (by omega)
        rw [Walk.start_skip] at hrest
        simp only [skip_eq start fun u hu => (hnext u hu).symm ▸ h, Checked.ok_bind, hrest]
        rfl
      · have hrest := ih (w := ⟨start, Walk.after? start v⟩) hnext (by omega)
        simp only [pure_bind, hrest, Checked.ok_bind]
        rfl

end Arena

/-- **Walking from a node is traversing it by recursion**, whatever is skipped, in the tree of every
result. A walk ends by leaving the node it began with and meets nothing outside of it. If nothing
is skipped, every node is entered once and left once. In every arena that stores the tree a walk makes
the same steps, within two rounds for each node of the tree. -/
theorem walk_traverses {text : Text} {options : Options} {p : Parse}
    (h : Parse.Reachable text options p) {c : Cursor} (hc : c ∈ p.tree.cursors)
    (chosen : Cursor → Bool) :
    (Walk.ofCursor c).run (Walk.skipsAfter chosen) = c.traverse chosen ∧
      ((Walk.ofCursor c).run (Walk.skipsAfter chosen)).getLast? = some (.leave c) ∧
      (∀ v ∈ (Walk.ofCursor c).run (Walk.skipsAfter chosen), v.cursor ∈ c.descendants) ∧
      (((Walk.ofCursor c).run fun _ => false).filterMap Visit.entered? = c.descendants ∧
        (((Walk.ofCursor c).run fun _ => false).filterMap Visit.left?).Perm c.descendants ∧
        (c.descendants.map fun d => d.focus.id).Nodup) ∧
      ∀ a : Arena, (∀ x ∈ p.tree.entries, a.Has x) → ∀ chosen : Nat → Bool,
        ∀ rounds ≥ 2 * p.tree.root.size,
          a.walk (Arena.skipsAfter chosen) c.focus.id rounds (some (.enter c.focus.id)) =
            .ok ((c.traverse fun d => chosen d.focus.id).map Visit.filed) := by
  have hroot := Tree.root_of_mem_cursors hc
  have hids : (c.focus.descendants.map Node.id).Nodup := Cursor.nodup_ids (hroot ▸ h.faithful.ids)
  have hrun := fun chosen => Walk.run_ofCursor chosen hids
  have hopen := hrun fun _ => false
  rw [Walk.skipsAfter_none] at hopen
  rw [hrun, hopen]
  refine ⟨rfl, Cursor.getLast?_traverse chosen c,
    fun v hv => Cursor.cursor_mem_of_traverseFrom chosen hv,
    ⟨Cursor.entered_traverseFrom c.path c.focus, Cursor.left_traverseFrom c.path c.focus, ?_⟩, ?_⟩
  · rw [← Cursor.map_focus_descendantsFrom c.path c.focus, List.map_map] at hids
    exact hids
  · intro a ha chosen rounds hr
    rw [Tree.entries_eq] at ha
    have hskips : (fun v => Arena.skipsAfter chosen (Visit.filed v)) =
        Walk.skipsAfter fun d => chosen d.focus.id := by
      funext v
      cases v <;> rfl
    have hpending : ∀ v ∈ (Walk.ofCursor c).pending, v.cursor.root = p.tree.root := by
      rintro v ⟨⟩
      exact hroot
    have hremaining : (Walk.ofCursor c).remaining ≤ rounds :=
      (Walk.stepsFrom_enter_le c).trans (hroot ▸ hr)
    have hwalk := Arena.walk_eq ha (Arena.skipsAfter chosen) hpending hremaining
    rw [hskips, hrun] at hwalk
    exact hwalk

/-- A walk that skips what is below an expression, after an edit that renames its variable, through the
tree and through its arena. -/
theorem walk_traverses_rename : ∃ (d : Filed) (p : Parse),
    (Filed.parse ['x', '\n'] {} >>= fun d => d.after ⟨⟨0, 1⟩, ['y']⟩) = .ok d ∧ d.load = .ok p ∧
      p.tree.cursor ∈ p.tree.cursors ∧
      ((Walk.ofCursor p.tree.cursor).run
          (Walk.skipsAfter fun c => c.focus.kind == .expression)).map
          (fun v => v.cursor.focus.kind) =
        [.document, .objective, .expression, .expression, .objective, .newline, .newline,
          .document] ∧
      d.arena.walk (Arena.skipsAfter (· == 2)) 0 (2 * p.tree.root.size) (some (.enter 0)) =
        .ok [.enter 0, .enter 1, .enter 2, .leave 2, .leave 1, .enter 5, .leave 5, .leave 0] := by
  have hr : (parse ['x', '\n'] {}).reparse ⟨⟨0, 1⟩, ['y']⟩ =
      .ok ((parse ['x', '\n'] {}).reparseText ⟨⟨0, 1⟩, ['y']⟩ ['y', '\n']) := rfl
  generalize hanswer : (parse ['x', '\n'] {}).reparseText ⟨⟨0, 1⟩, ['y']⟩ ['y', '\n'] = r at hr
  obtain ⟨d, hparse, hd⟩ := @Filed.parse_eq ['x', '\n'] (by decide) {}
  obtain ⟨d', hafter, hd'⟩ := Filed.after_eq hd (parse_faithful _ {}) (parse_accounted _ {})
    (e := ⟨⟨0, 1⟩, ['y']⟩) (by decide) (by decide) (by decide)
  rw [Parse.after, hr] at hd'
  have hreach : Parse.Reachable ['x', '\n'] {} r.1.parse :=
    .step (@Parse.Reachable.start ['x', '\n'] {}) (by decide) hr
  have hmem : r.1.parse.tree.cursor ∈ r.1.parse.tree.cursors := Tree.mem_cursors_iff.2 rfl
  refine ⟨d', r.1.parse, ?_, hd'.load_eq hreach.accounted, hmem, ?_, ?_⟩
  · rw [hparse, Checked.ok_bind, hafter]
  · rw [(walk_traverses hreach hmem _).1, ← hanswer]
    decide +kernel
  · have hwalk := (walk_traverses hreach hmem fun _ => false).2.2.2.2 d'.arena hd'.entries (· == 2) _
      (Nat.le_refl _)
    have hroot : r.1.parse.tree.cursor.focus.id = 0 := by
      rw [← hanswer]
      decide +kernel
    rw [hroot] at hwalk
    rw [hwalk, ← hanswer]
    decide +kernel

end LpFormat
