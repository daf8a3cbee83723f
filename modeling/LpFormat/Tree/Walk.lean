import LpFormat.Tree.Cursor

/-!
# Walks

A `Walk` goes through a tree step by step and needs no stack: it keeps the step to come and finds
the one after it from the relatives of the node. Between steps the rest of a subtree can be skipped.

* `Visit`, `Walk`, `Walk.ofCursor`, `Walk.after?`, `Walk.next?`, `Walk.skip`;
* `Walk.remaining`: how many steps are to come if nothing is skipped; every step lowers it;
* `Walk.run`: all steps, with a choice after each whether to skip.
-/

namespace LpFormat

/-- A step of a walk. -/
inductive Visit where
  | enter (c : Cursor)
  | leave (c : Cursor)

/-- The node of a step. -/
def Visit.cursor : Visit → Cursor
  | enter c => c
  | leave c => c

/-- A walk: the id of the node it ends with, and the step to come. -/
structure Walk where
  start : Nat
  pending : Option Visit

namespace Walk

/-- The walk through the subtree of a node. -/
def ofCursor (c : Cursor) : Walk := ⟨c.focus.id, some (.enter c)⟩

/-- The step after another: down to the first child, else on to the next sibling, else up. The
walk ends when its first node is left. -/
def after? (start : Nat) : Visit → Option Visit
  | .enter c =>
    match c.childAt? 0 with
    | some child => some (.enter child)
    | none => some (.leave c)
  | .leave c =>
    if c.focus.id = start then none
    else
      match c.next? with
      | some sibling => some (.enter sibling)
      | none => c.parent?.map .leave

/-- Skips what was about to be entered: the walk goes on by leaving the node above, or the node
itself if it is the root. -/
def skip (w : Walk) : Walk :=
  match w.pending with
  | some (.enter c) => { w with pending := some (.leave (c.parent?.getD c)) }
  | _ => w

/-- Takes the step to come. -/
def next? (w : Walk) : Option (Visit × Walk) :=
  w.pending.map fun v => (v, { w with pending := after? w.start v })

/-! ## Walks come to an end -/

/-- The steps that follow once a node at the end of a path is left. -/
def stepsAbove : List Crumb → Nat
  | [] => 0
  | k :: ks => 1 + 2 * Node.sizeAll k.after + stepsAbove ks

/-- The number of steps from a step on, itself included, if nothing is skipped and the walk goes on
to the root. -/
def stepsFrom : Visit → Nat
  | .enter c => 2 * c.focus.size + stepsAbove c.path
  | .leave c => 1 + stepsAbove c.path

/-- The number of steps to come, if nothing is skipped and the walk goes on to the root. -/
def remaining (w : Walk) : Nat :=
  match w.pending with
  | none => 0
  | some v => stepsFrom v

theorem stepsFrom_after_lt {start : Nat} {v w : Visit} (h : after? start v = some w) :
    stepsFrom w < stepsFrom v := by
  cases v with
  | enter c =>
    obtain ⟨⟨id, kind, span, children⟩, path⟩ := c
    cases children with
    | nil =>
      simp only [after?, Cursor.childAt?, Cursor.children, Cursor.placeAll, List.getElem?_nil,
        Option.some.injEq] at h
      subst h
      simp only [stepsFrom, Node.size, Node.sizeAll]
      omega
    | cons n ns =>
      simp only [after?, Cursor.childAt?, Cursor.children, Cursor.placeAll,
        List.getElem?_cons_zero, Option.some.injEq] at h
      subst h
      simp only [stepsFrom, stepsAbove, Node.size, Node.sizeAll]
      omega
  | leave c =>
    obtain ⟨focus, path⟩ := c
    simp only [after?] at h
    split at h
    · simp at h
    · cases path with
      | nil => simp [Cursor.next?, Cursor.parent?] at h
      | cons k ks =>
        obtain ⟨id, kind, span, before, later⟩ := k
        cases later with
        | nil =>
          simp only [Cursor.next?, Cursor.parent?, Option.map_some, Option.some.injEq] at h
          subst h
          simp only [stepsFrom, stepsAbove, Node.sizeAll]
          omega
        | cons n ns =>
          simp only [Cursor.next?, Option.some.injEq] at h
          subst h
          simp only [stepsFrom, stepsAbove, Node.sizeAll]
          omega

theorem stepsFrom_pos (v : Visit) : 0 < stepsFrom v := by
  cases v with
  | enter c =>
    obtain ⟨⟨id, kind, span, children⟩, path⟩ := c
    simp only [stepsFrom, Node.size]
    omega
  | leave c =>
    simp only [stepsFrom]
    omega

theorem remaining_next_lt {w w' : Walk} {v : Visit} (h : w.next? = some (v, w')) :
    w'.remaining < w.remaining := by
  obtain ⟨start, pending⟩ := w
  cases pending with
  | none => simp [next?] at h
  | some u =>
    simp only [next?, Option.map_some, Option.some.injEq, Prod.mk.injEq] at h
    obtain ⟨rfl, rfl⟩ := h
    cases ha : after? start u with
    | none => simpa only [remaining, ha] using stepsFrom_pos u
    | some x => simpa only [remaining, ha] using stepsFrom_after_lt ha

theorem remaining_skip_le (w : Walk) : w.skip.remaining ≤ w.remaining := by
  obtain ⟨start, pending⟩ := w
  match pending with
  | none => exact Nat.le_refl _
  | some (.leave c) => exact Nat.le_refl _
  | some (.enter c) =>
    obtain ⟨⟨id, kind, span, children⟩, path⟩ := c
    cases path with
    | nil =>
      simp only [skip, remaining, Cursor.parent?, Option.getD_none, stepsFrom, Node.size]
      omega
    | cons k ks =>
      simp only [skip, remaining, Cursor.parent?, Option.getD_some, stepsFrom, stepsAbove,
        Node.size]
      omega

/-- All steps of a walk, where `skips` says after which steps it skips. -/
def run (skips : Visit → Bool) (w : Walk) : List Visit :=
  match _h : w.next? with
  | none => []
  | some (v, w') => v :: run skips (if skips v then w'.skip else w')
termination_by w.remaining
decreasing_by
  have hlt := remaining_next_lt _h
  have hle := remaining_skip_le w'
  split <;> omega

end Walk

end LpFormat
