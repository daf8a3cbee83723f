import LpFormat.Proofs.Text.Bytes
import LpFormat.Proofs.Tree.Skeleton
import LpFormat.Tree.Cursor

/-!
# Changing a tree in one place

A root whose nodes fit stays such a root when a node is replaced by one that starts at the same
offset, as long as everything after it is moved.

* `Node.Tiled`, `Node.Rooted`: children that fit, and the root of a tree for a forest;
* `Crumb.eventsBefore`, `Crumb.eventsAfter`, **`Cursor.root_events`**: the events of a tree around one
  of its nodes;
* `Cursor.adjoin_before`, `Cursor.adjoin_after`: where they stand;
* `Crumb.idsBefore`, `Crumb.idsAfter`, `Cursor.root_ids`: the same for ids;
* **`Cursor.Rooted.splice`**: what `splice` makes of a tree;
* `Cursor.cover_root`, `Cursor.cover_contains`, `Cursor.mem_ancestors`: the node around a span and
  the nodes around that.
-/

namespace LpFormat

/-! ## Shifting -/

theorem shiftOffset_cast {a : Nat} {δ : Int} (h : 0 ≤ (a : Int) + δ) :
    (shiftOffset a δ : Int) = a + δ := Int.toNat_of_nonneg h

theorem Adjoin.shift {a b : Nat} {δ : Int} {ss : List Span} (h : Adjoin a b ss)
    (ha : 0 ≤ (a : Int) + δ) :
    Adjoin (shiftOffset a δ) (shiftOffset b δ) (ss.map fun s => s.shift δ) := by
  induction ss generalizing a with
  | nil =>
    obtain rfl : a = b := h
    rfl
  | cons s ss ih =>
    obtain ⟨rfl, hle, h⟩ := h
    refine ⟨rfl, ?_, ih h (by omega)⟩
    simp only [Span.shift, shiftOffset]
    omega

namespace Node

theorem shift_eq (delta : Int) (n : Node) :
    n.shift delta = ⟨n.id, n.kind, n.span.shift delta, n.children.map (shift delta)⟩ := by
  obtain ⟨id, kind, span, children⟩ := n
  rw [shift, shiftAll_eq_map]

theorem span_shift (delta : Int) (n : Node) : (n.shift delta).span = n.span.shift delta := by
  rw [shift_eq]

theorem events_shift (delta : Int) (n : Node) :
    (n.shift delta).skeleton.events =
      n.skeleton.events.map (Event.move fun a => shiftOffset a delta) := by
  match n with
  | ⟨id, kind, span, children⟩ =>
    rw [shift_eq]
    by_cases hk : kind.isToken = true
    · rw [skeleton_of_isToken hk, skeleton_of_isToken hk]
      rfl
    · have hn : kind.isNode = true := by simpa [Kind.isToken] using hk
      rw [skeleton_of_isNode hn, skeleton_of_isNode hn]
      simp only [Skeleton.events, Skeleton.eventsAll_eq_flatMap, List.map_cons, List.map_append,
        List.flatMap_map, List.map_flatMap, List.map_nil, Event.move]
      congr 2
      rw [List.flatMap_def, List.flatMap_def]
      exact congrArg List.flatten (List.map_congr_left fun c hc => events_shift delta c)

theorem ids_shift (delta : Int) (n : Node) :
    (n.shift delta).descendants.map Node.id = n.descendants.map Node.id := by
  match n with
  | ⟨id, kind, span, children⟩ =>
    rw [shift_eq, descendants_eq, descendants_eq, List.map_cons, List.map_cons, List.map_flatMap,
      List.map_flatMap, List.flatMap_map, List.flatMap_def, List.flatMap_def]
    refine congrArg (id :: ·) (congrArg List.flatten (List.map_congr_left fun c hc => ?_))
    exact ids_shift delta c

theorem Fitted.shift {n : Node} {δ : Int} (h : n.Fitted) (hδ : 0 ≤ (n.span.start : Int) + δ) :
    (n.shift δ).Fitted := by
  induction h with
  | token hk hs =>
    rw [shift_eq]
    refine .token hk ?_
    simp only [Span.shift, shiftOffset] at hδ ⊢
    omega
  | @node id kind span children hk hne hs _ ih =>
    rw [shift_eq]
    refine .node hk (by simpa using hne) ?_ ?_
    · have := hs.shift hδ
      rw [List.map_map] at this ⊢
      simp only [Function.comp_def, span_shift] at this ⊢
      exact this
    · intro c hc
      obtain ⟨d, hd, rfl⟩ := List.mem_map.1 hc
      refine ih d hd ?_
      have := (hs.mem (List.mem_map_of_mem hd)).1
      simp only at hδ
      omega

/-! ## Roots -/

/-- The children of a node fit, and the node spans exactly what they span. -/
structure Tiled (n : Node) : Prop where
  adjoin : Adjoin n.span.start n.span.stop (n.children.map Node.span)
  fitted : ∀ c ∈ n.children, c.Fitted

/-- The root of a tree that stands for a forest over a text of a given size. -/
structure Rooted (n : Node) (f : List Skeleton) (size : Nat) : Prop where
  kind : n.kind = .document
  span : n.span = ⟨0, size⟩
  skeletons : n.children.map skeleton = f
  tiled : n.Tiled

theorem Fitted.tiled {n : Node} (h : n.Fitted) (hne : n.children ≠ []) :
    n.Tiled ∧ n.kind.isNode = true := by
  cases h with
  | token _ _ => exact absurd rfl hne
  | node hk _ hs hc => exact ⟨⟨hs, hc⟩, hk⟩

theorem Tiled.toFitted {n : Node} (h : n.Tiled) (hk : n.kind.isNode = true)
    (hne : n.children ≠ []) : n.Fitted := by
  obtain ⟨id, kind, span, children⟩ := n
  exact .node hk hne h.adjoin h.fitted

theorem Rooted.events {n : Node} {f : List Skeleton} {size : Nat} (h : n.Rooted f size) :
    n.skeleton.events = .start .document :: (Skeleton.eventsAll f ++ [.finish]) := by
  have hk : n.kind.isNode = true := by
    rw [h.kind]
    rfl
  rw [skeleton_of_isNode hk, Skeleton.events, h.kind, h.skeletons]

theorem Rooted.adjoin {n : Node} {f : List Skeleton} {size : Nat} (h : n.Rooted f size) :
    Adjoin 0 size (leafSpans n.skeleton.events) := by
  have hsize : Adjoin 0 size (n.children.map Node.span) := by
    have := h.tiled.adjoin
    rwa [h.span] at this
  have hmap : leafSpans n.skeleton.events =
      n.children.flatMap fun c => leafSpans c.skeleton.events := by
    rw [h.events, leafSpans_enclosed, ← h.skeletons, Skeleton.eventsAll_eq_flatMap, leafSpans,
      leavesOf, List.filterMap_flatMap, List.map_flatMap, List.flatMap_map]
    rfl
  rw [hmap]
  refine hsize.flatMap fun c hc => ?_
  have hc' := h.tiled.fitted c hc
  rw [leafSpans, hc'.leavesOf_eq, List.map_map]
  exact hc'.adjoin_leaves

end Node

namespace Crumb

theorem children_plug (k : Crumb) (n : Node) : (k.plug n).children = k.before.reverse ++ n :: k.after :=
  rfl

theorem children_plug_ne (k : Crumb) (n : Node) : (k.plug n).children ≠ [] := by
  simp [children_plug]

theorem mem_children_plug (k : Crumb) (n : Node) : n ∈ (k.plug n).children := by
  simp [children_plug]

/-- The node above keeps fitting when the node in the middle grows. -/
theorem tiled_grow {k : Crumb} {m n : Node} {δ : Int} (h : (k.plug m).Tiled) (hn : n.Fitted)
    (hstart : n.span.start = m.span.start) (hstop : (n.span.stop : Int) = m.span.stop + δ) :
    ((k.grow δ).plug n).Tiled ∧ ((k.grow δ).plug n).span.start = (k.plug m).span.start ∧
      (((k.grow δ).plug n).span.stop : Int) = (k.plug m).span.stop + δ := by
  have hadjoin := h.adjoin
  rw [children_plug, List.map_append, List.map_cons] at hadjoin
  obtain ⟨a, hbefore, hm, hle, hafter⟩ := Adjoin.append_iff.1 hadjoin
  have hshift := hafter.shift (δ := δ) (by omega)
  have hmid : shiftOffset m.span.stop δ = n.span.stop := shiftOffset_eq hstop
  rw [hmid] at hshift
  have hgrown : (shiftOffset (k.plug m).span.stop δ : Int) = (k.plug m).span.stop + δ := by
    have := hafter.le
    exact shiftOffset_cast (by omega)
  refine ⟨⟨?_, ?_⟩, rfl, hgrown⟩
  · rw [children_plug, List.map_append, List.map_cons]
    refine Adjoin.append_iff.2 ⟨a, hbefore, hstart.trans hm, hn.span_le, ?_⟩
    rw [List.map_map] at hshift
    change Adjoin _ _ ((Node.shiftAll δ k.after).map Node.span)
    rw [Node.shiftAll_eq_map, List.map_map]
    simp only [Function.comp_def, Node.span_shift] at hshift ⊢
    exact hshift
  · intro c hc
    rw [children_plug, List.mem_append, List.mem_cons] at hc
    rcases hc with hc | rfl | hc
    · exact h.fitted c (by rw [children_plug]; exact List.mem_append_left _ hc)
    · exact hn
    · change c ∈ Node.shiftAll δ k.after at hc
      rw [Node.shiftAll_eq_map] at hc
      obtain ⟨d, hd, rfl⟩ := List.mem_map.1 hc
      have hd' := h.fitted d (by simp [children_plug, hd])
      refine hd'.shift ?_
      have := (hafter.mem (List.mem_map_of_mem hd)).1
      omega

/-- The events before a node at the end of a path. -/
def eventsBefore : List Crumb → List Event
  | [] => []
  | k :: ks =>
    eventsBefore ks ++ .start k.kind :: k.before.reverse.flatMap fun n => n.skeleton.events

/-- The events after a node at the end of a path. -/
def eventsAfter : List Crumb → List Event
  | [] => []
  | k :: ks => k.after.flatMap (fun n => n.skeleton.events) ++ .finish :: eventsAfter ks

theorem eventsBefore_grow (δ : Int) (ks : List Crumb) :
    eventsBefore (ks.map (grow δ)) = eventsBefore ks := by
  induction ks with
  | nil => rfl
  | cons k ks ih => rw [List.map_cons, eventsBefore, ih, eventsBefore]; rfl

theorem eventsAfter_grow (δ : Int) (ks : List Crumb) : eventsAfter (ks.map (grow δ)) =
    (eventsAfter ks).map (Event.move fun a => shiftOffset a δ) := by
  induction ks with
  | nil => rfl
  | cons k ks ih =>
    rw [List.map_cons, eventsAfter, ih, eventsAfter, List.map_append, List.map_cons]
    change (Node.shiftAll δ k.after).flatMap _ ++ _ = _
    rw [Node.shiftAll_eq_map, List.flatMap_map, List.map_flatMap]
    simp only [Node.events_shift]
    rfl

/-- The ids before a node at the end of a path, in the order of the text. -/
def idsBefore : List Crumb → List Nat
  | [] => []
  | k :: ks => idsBefore ks ++ k.id :: (k.before.reverse.flatMap Node.descendants).map Node.id

/-- The ids after a node at the end of a path. -/
def idsAfter : List Crumb → List Nat
  | [] => []
  | k :: ks => (k.after.flatMap Node.descendants).map Node.id ++ idsAfter ks

theorem idsBefore_grow (δ : Int) (ks : List Crumb) :
    idsBefore (ks.map (grow δ)) = idsBefore ks := by
  induction ks with
  | nil => rfl
  | cons k ks ih => rw [List.map_cons, idsBefore, ih, idsBefore]; rfl

theorem idsAfter_grow (δ : Int) (ks : List Crumb) :
    idsAfter (ks.map (grow δ)) = idsAfter ks := by
  induction ks with
  | nil => rfl
  | cons k ks ih =>
    rw [List.map_cons, idsAfter, ih, idsAfter]
    change ((Node.shiftAll δ k.after).flatMap _).map _ ++ _ = _
    rw [Node.shiftAll_eq_map, List.flatMap_map, List.map_flatMap, List.map_flatMap]
    simp only [Node.ids_shift]

end Crumb

namespace Cursor

/-- Puts a node at the end of a path. -/
theorem root_cons (n : Node) (k : Crumb) (ks : List Crumb) :
    (⟨n, k :: ks⟩ : Cursor).root = (⟨k.plug n, ks⟩ : Cursor).root := rfl

/-- **The events of a tree around one of its nodes.** -/
theorem root_events {path : List Crumb} (hk : ∀ k ∈ path, k.kind.isNode = true) (n : Node) :
    (⟨n, path⟩ : Cursor).root.skeleton.events =
      Crumb.eventsBefore path ++ n.skeleton.events ++ Crumb.eventsAfter path := by
  induction path generalizing n with
  | nil => simp [root, Crumb.eventsBefore, Crumb.eventsAfter]
  | cons k ks ih =>
    obtain ⟨hk₀, hks⟩ := List.forall_mem_cons.1 hk
    rw [root_cons, ih hks, Node.skeleton_of_isNode hk₀, Skeleton.events, Crumb.children_plug,
      Skeleton.eventsAll_eq_flatMap, List.flatMap_map, List.flatMap_append, List.flatMap_cons,
      Crumb.eventsBefore, Crumb.eventsAfter]
    simp [Crumb.plug]

theorem root_ids (path : List Crumb) (n : Node) :
    (⟨n, path⟩ : Cursor).root.descendants.map Node.id =
      Crumb.idsBefore path ++ n.descendants.map Node.id ++ Crumb.idsAfter path := by
  induction path generalizing n with
  | nil => simp [root, Crumb.idsBefore, Crumb.idsAfter]
  | cons k ks ih =>
    rw [root_cons, ih, Node.descendants_eq, Crumb.children_plug, List.flatMap_append,
      List.flatMap_cons, Crumb.idsBefore, Crumb.idsAfter]
    simp [Crumb.plug]

/-! ## Around a node -/

/-- All nodes beside a path fit, and those above it have children. -/
structure OnPath (k : Crumb) : Prop where
  kind : k.kind.isNode = true
  before : ∀ n ∈ k.before, n.Fitted
  after : ∀ n ∈ k.after, n.Fitted

theorem onPath_of_tiled {k : Crumb} {n : Node} (h : (k.plug n).Tiled)
    (hk : (k.plug n).kind.isNode = true) : OnPath k ∧ n.Fitted := by
  refine ⟨⟨hk, fun m hm => h.fitted m ?_, fun m hm => h.fitted m ?_⟩,
    h.fitted n (k.mem_children_plug n)⟩
  · simp [Crumb.children_plug, hm]
  · simp [Crumb.children_plug, hm]

/-- A node inside a tree whose nodes fit: it fits, and so does all that is around it. -/
theorem onPath_of_root {path : List Crumb} {n : Node} (h : (⟨n, path⟩ : Cursor).root.Tiled)
    (hk : (⟨n, path⟩ : Cursor).root.kind.isNode = true) :
    n.Tiled ∧ n.kind.isNode = true ∧ path = [] ∨ n.Fitted ∧ ∀ k ∈ path, OnPath k := by
  induction path generalizing n with
  | nil => exact .inl ⟨h, hk, rfl⟩
  | cons k ks ih =>
    rcases ih h hk with ⟨ht, hk', rfl⟩ | ⟨hf, hks⟩
    · obtain ⟨hon, hn⟩ := onPath_of_tiled ht hk'
      exact .inr ⟨hn, List.forall_mem_cons.2 ⟨hon, List.forall_mem_nil _⟩⟩
    · obtain ⟨ht, hk'⟩ := hf.tiled (k.children_plug_ne n)
      obtain ⟨hon, hn⟩ := onPath_of_tiled ht hk'
      exact .inr ⟨hn, List.forall_mem_cons.2 ⟨hon, hks⟩⟩

theorem leavesOf_flatMap {ns : List Node} (h : ∀ n ∈ ns, n.Fitted) :
    leavesOf (ns.flatMap fun n => n.skeleton.events) =
      (ns.flatMap Node.leaves).map fun m => (m.kind, m.span) := by
  rw [leavesOf, List.filterMap_flatMap, List.map_flatMap, List.flatMap_def, List.flatMap_def]
  exact congrArg List.flatten (List.map_congr_left fun n hn => (h n hn).leavesOf_eq)

theorem leavesBefore_eq {path : List Crumb} (h : ∀ k ∈ path, OnPath k) (n : Node) :
    leavesOf (Crumb.eventsBefore path) =
      (⟨n, path⟩ : Cursor).leavesBefore.reverse.map fun m => (m.kind, m.span) := by
  induction path with
  | nil => rfl
  | cons k ks ih =>
    obtain ⟨hk, hks⟩ := List.forall_mem_cons.1 h
    have hhere : leavesOf (k.before.reverse.flatMap fun n => n.skeleton.events) =
        (k.before.flatMap fun n => n.leaves.reverse).reverse.map fun m => (m.kind, m.span) := by
      rw [leavesOf_flatMap fun m hm => hk.before m (List.mem_reverse.1 hm), List.reverse_flatMap]
      simp only [Function.comp_def, List.reverse_reverse]
    change leavesOf (Crumb.eventsBefore ks ++
      ([.start k.kind] ++ k.before.reverse.flatMap fun n => n.skeleton.events)) = _
    rw [leavesOf_append, leavesOf_append, ih hks, hhere]
    simp [leavesBefore, leavesOf, Event.leaf?]

/-- A node in its place below the root of a tree for a forest. -/
structure Placed (c : Cursor) (f : List Skeleton) (size : Nat) : Prop where
  rooted : c.root.Rooted f size
  below : c.path ≠ []

end Cursor

theorem Node.Fitted.solid {n : Node} (h : n.Fitted) : n.span.start < n.span.stop := by
  induction h with
  | token _ hs => exact hs
  | @node id kind span children _ hne hs _ ih =>
    obtain ⟨c, cs, rfl⟩ := List.exists_cons_of_ne_nil hne
    obtain ⟨h₁, _, h₂⟩ := hs
    have := ih c List.mem_cons_self
    have := h₂.le
    simp only at h₁ ⊢
    omega

namespace Cursor.Placed

variable {c : Cursor} {f : List Skeleton} {size : Nat}

theorem fitted (h : c.Placed f size) : c.focus.Fitted ∧ ∀ k ∈ c.path, OnPath k := by
  have hk : c.root.kind.isNode = true := by
    rw [h.rooted.kind]
    rfl
  rcases @onPath_of_root c.path _ h.rooted.tiled hk with ⟨_, _, hnil⟩ | hf
  · exact absurd hnil h.below
  · exact hf

theorem events_eq (h : c.Placed f size) : .start .document :: (Skeleton.eventsAll f ++ [.finish]) =
    Crumb.eventsBefore c.path ++ c.focus.skeleton.events ++ Crumb.eventsAfter c.path := by
  rw [← h.rooted.events]
  exact root_events (fun k hk => (h.fitted.2 k hk).kind) c.focus

/-- Leaves before a node adjoin up to its start, leaves after it from its end. -/
theorem adjoin (h : c.Placed f size) :
    Adjoin 0 c.focus.span.start (leafSpans (Crumb.eventsBefore c.path)) ∧
      Adjoin c.focus.span.stop size (leafSpans (Crumb.eventsAfter c.path)) := by
  have hroot := h.rooted.adjoin
  rw [h.rooted.events, h.events_eq, leafSpans_append, leafSpans_append] at hroot
  obtain ⟨b, hab, hafter⟩ := Adjoin.append_iff.1 hroot
  obtain ⟨a, hbefore, hfocus⟩ := Adjoin.append_iff.1 hab
  have hleaves : Adjoin c.focus.span.start c.focus.span.stop (leafSpans c.focus.skeleton.events) := by
    rw [leafSpans, h.fitted.1.leavesOf_eq, List.map_map]
    exact h.fitted.1.adjoin_leaves
  have hne : leafSpans c.focus.skeleton.events ≠ [] := by
    intro hnil
    rw [hnil] at hleaves
    exact absurd hleaves (Nat.ne_of_lt h.fitted.1.solid)
  obtain ⟨rfl, rfl⟩ := hleaves.unique hne hfocus
  exact ⟨hbefore, hafter⟩

end Cursor.Placed

/-! ## Putting another node in place -/

namespace Cursor

theorem tiled_splice {path : List Crumb} {m n : Node} {δ : Int}
    (h : (⟨m, path⟩ : Cursor).root.Tiled) (hk : (⟨m, path⟩ : Cursor).root.kind.isNode = true)
    (hp : path ≠ []) (hn : n.Fitted) (hstart : n.span.start = m.span.start)
    (hstop : (n.span.stop : Int) = m.span.stop + δ) :
    ((⟨m, path⟩ : Cursor).splice n δ).Tiled ∧
      ((⟨m, path⟩ : Cursor).splice n δ).kind = (⟨m, path⟩ : Cursor).root.kind ∧
      ((⟨m, path⟩ : Cursor).splice n δ).span.start = (⟨m, path⟩ : Cursor).root.span.start ∧
      (((⟨m, path⟩ : Cursor).splice n δ).span.stop : Int) =
        (⟨m, path⟩ : Cursor).root.span.stop + δ := by
  induction path generalizing m n with
  | nil => exact absurd rfl hp
  | cons k ks ih =>
    by_cases hks : ks = []
    · subst hks
      obtain ⟨h₁, h₂, h₃⟩ := Crumb.tiled_grow h hn hstart hstop
      exact ⟨h₁, rfl, h₂, h₃⟩
    · -- the level above fits, and so does the same level grown
      rcases @onPath_of_root ks _ h hk with ⟨_, _, hnil⟩ | ⟨hf, _⟩
      · exact absurd hnil hks
      · obtain ⟨ht, hkn⟩ := hf.tiled (k.children_plug_ne m)
        obtain ⟨h₁, h₂, h₃⟩ := Crumb.tiled_grow ht hn hstart hstop
        have hgrown := h₁.toFitted hkn ((k.grow δ).children_plug_ne n)
        exact ih h hk hks hgrown h₂ h₃

/-- **A tree with another node in one place and everything after it moved.** -/
theorem Placed.splice {c : Cursor} {f : List Skeleton} {size : Nat} (h : c.Placed f size) {n : Node}
    {δ : Int} {size' : Nat} (hn : n.Fitted) (hstart : n.span.start = c.focus.span.start)
    (hstop : (n.span.stop : Int) = c.focus.span.stop + δ) (hsize : (size' : Int) = size + δ) :
    ∃ g, (c.splice n δ).Rooted g size' ∧ .start .document :: (Skeleton.eventsAll g ++ [.finish]) =
      Crumb.eventsBefore c.path ++ n.skeleton.events ++
        (Crumb.eventsAfter c.path).map (Event.move fun a => shiftOffset a δ) := by
  have hk : c.root.kind.isNode = true := by
    rw [h.rooted.kind]
    rfl
  obtain ⟨h₁, h₂, h₃, h₄⟩ :=
    @tiled_splice c.path _ _ _ h.rooted.tiled hk h.below hn hstart hstop
  have hspan : c.root.span = ⟨0, size⟩ := h.rooted.span
  have hrooted : (c.splice n δ).Rooted ((c.splice n δ).children.map Node.skeleton) size' := by
    refine ⟨h₂.trans h.rooted.kind, ?_, rfl, h₁⟩
    change (c.splice n δ).span.start = c.root.span.start at h₃
    change ((c.splice n δ).span.stop : Int) = c.root.span.stop + δ at h₄
    rw [hspan] at h₃ h₄
    cases hs : (c.splice n δ).span with
    | mk a b =>
      rw [hs] at h₃ h₄
      simp only at h₃ h₄
      rw [Span.mk.injEq]
      omega
  refine ⟨_, hrooted, ?_⟩
  rw [← hrooted.events, ← Crumb.eventsAfter_grow, ← Crumb.eventsBefore_grow δ c.path]
  refine @root_events (c.path.map (Crumb.grow δ)) ?_ n
  intro k hk
  obtain ⟨k', hk', rfl⟩ := List.mem_map.1 hk
  exact (h.fitted.2 k' hk').kind

/-! ## The node around a span -/

theorem contains_iff {a b : Span} :
    a.contains b = true ↔ a.start ≤ b.start ∧ b.stop ≤ a.stop := by
  simp [Span.contains]

mutual

/-- The deepest node around a span is in the same tree, and lies around the span if it is not the
node that the way down started at. -/
theorem coverFrom_root (target : Span) (path : List Crumb) (n : Node) :
    (coverFrom target path n).root = (⟨n, path⟩ : Cursor).root ∧
      (coverFrom target path n = ⟨n, path⟩ ∨
        (coverFrom target path n).focus.span.contains target = true) := by
  match n with
  | ⟨id, kind, span, children⟩ =>
    rw [coverFrom]
    cases hc : coverFromAll target id kind span path [] children with
    | none => exact ⟨rfl, .inl rfl⟩
    | some c =>
      obtain ⟨h₁, h₂⟩ := coverFromAll_root target id kind span path [] children hc
      exact ⟨h₁, .inr h₂⟩

theorem coverFromAll_root (target : Span) (id : Nat) (kind : Kind) (span : Span)
    (path : List Crumb) (before ns : List Node) {c : Cursor}
    (h : coverFromAll target id kind span path before ns = some c) :
    c.root = (⟨⟨id, kind, span, before.reverse ++ ns⟩, path⟩ : Cursor).root ∧
      c.focus.span.contains target = true := by
  match ns with
  | [] => cases h
  | n :: ns =>
    rw [coverFromAll] at h
    split_ifs at h with hn
    · cases h
      obtain ⟨h₁, h₂⟩ := coverFrom_root target (⟨id, kind, span, before, ns⟩ :: path) n
      refine ⟨h₁, ?_⟩
      rcases h₂ with h₂ | h₂
      · rw [h₂]
        exact hn
      · exact h₂
    · have := coverFromAll_root target id kind span path (n :: before) ns h
      rwa [List.reverse_cons, List.append_assoc] at this

end

/-- A node or one above it: in the same tree, and around the node. -/
theorem ancestorsFrom_root {path : List Crumb} {n : Node} {c : Cursor}
    (h : c ∈ ancestorsFrom n path) :
    c.root = (⟨n, path⟩ : Cursor).root ∧
      ((⟨n, path⟩ : Cursor).root.Tiled → (⟨n, path⟩ : Cursor).root.kind.isNode = true →
        c.focus.span.contains n.span = true) := by
  induction path generalizing n with
  | nil =>
    obtain rfl : c = ⟨n, []⟩ := List.mem_singleton.1 h
    exact ⟨rfl, fun _ _ => by simp [contains_iff]⟩
  | cons k ks ih =>
    rcases List.mem_cons.1 h with rfl | h
    · exact ⟨rfl, fun _ _ => by simp [contains_iff]⟩
    · obtain ⟨h₁, h₂⟩ := ih h
      refine ⟨h₁, fun ht hk => ?_⟩
      have hin := contains_iff.1 (h₂ ht hk)
      have htiled : (k.plug n).Tiled := by
        rcases @onPath_of_root ks _ ht hk with ⟨h, _, _⟩ | ⟨h, _⟩
        · exact h
        · exact (h.tiled (k.children_plug_ne n)).1
      have := htiled.adjoin.mem (List.mem_map_of_mem (k.mem_children_plug n))
      exact contains_iff.2 (by omega)

end Cursor

end LpFormat
