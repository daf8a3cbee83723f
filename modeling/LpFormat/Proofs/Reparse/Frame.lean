import LpFormat.Proofs.Reparse.Accounting

/-!
# What an edit leaves alone

A tree stores an entry for each node, in which the nodes around it are named by their ids. An edit
that is answered in one place keeps all entries outside of it, but for their spans and for the child
that is new.

* `Entry`, `Cursor.entry`, `Tree.entries`: entries, in the order of the text;
* `Node.entries`, `Cursor.map_entry_descendantsFrom`: the same by recursion on nodes;
* `Crumb.entriesBefore`, `Crumb.entriesAfter`, `Cursor.root_entries`: the entries of a tree around one
  of its nodes;
* `Span.moved`, `Entry.moved`: where a span lies after an edit;
* `Crumb.Beside`, `Cursor.beside_of_root`: the levels above a node lie around it;
  `Crumb.entriesBefore_grow`, `Crumb.entriesAfter_grow`: their entries after an edit;
* `Entry.Kept`: the same entry before and after an edit; `Parse.Spliced.entries_of_leaf`,
  `Parse.Spliced.exists_kept`: what another node in one place keeps;
* **`local_frame`**: what an edit keeps that is answered by one token or by one statement.
-/

namespace LpFormat

/-! ## Entries of a tree -/

/-- What a tree stores of a node. -/
structure Entry where
  id : Nat
  kind : Kind
  span : Span
  /-- The id of the node above. -/
  parent : Option Nat
  /-- The index among the children of the node above. -/
  index : Nat
  /-- The ids of the children. -/
  children : List Nat
deriving DecidableEq, Repr

/-- The entry of a node in its place. -/
def Cursor.entry (c : Cursor) : Entry :=
  ⟨c.focus.id, c.focus.kind, c.focus.span, c.parent?.map fun p => p.focus.id, c.index,
    c.focus.children.map Node.id⟩

/-- The entries of the nodes of a tree, in the order of the text. -/
def Tree.entries (t : Tree) : List Entry := t.cursors.map Cursor.entry

/-- The entry of a node that was moved. -/
def Entry.shift (δ : Int) (x : Entry) : Entry := { x with span := x.span.shift δ }

namespace Node

mutual

/-- The entries of a node and of all below it. -/
def entries (parent : Option Nat) (index : Nat) : Node → List Entry
  | ⟨id, kind, span, children⟩ =>
    ⟨id, kind, span, parent, index, children.map Node.id⟩ :: entriesAll id 0 children

/-- The entries of some nodes under one node, from an index on, and of all below them. -/
def entriesAll (parent index : Nat) : List Node → List Entry
  | [] => []
  | n :: ns => n.entries (some parent) index ++ entriesAll parent (index + 1) ns

end

theorem entries_eq (parent : Option Nat) (index : Nat) (n : Node) : n.entries parent index =
    ⟨n.id, n.kind, n.span, parent, index, n.children.map Node.id⟩ :: entriesAll n.id 0 n.children := by
  obtain ⟨id, kind, span, children⟩ := n
  rw [entries]

theorem entriesAll_append (parent index : Nat) (ms ns : List Node) :
    entriesAll parent index (ms ++ ns) =
      entriesAll parent index ms ++ entriesAll parent (index + ms.length) ns := by
  induction ms generalizing index with
  | nil => simp [entriesAll]
  | cons m ms ih =>
    rw [List.cons_append, entriesAll, ih, entriesAll, List.append_assoc, List.length_cons,
      Nat.add_assoc, Nat.add_comm 1]

theorem mem_entriesAll {parent index : Nat} {ns : List Node} {x : Entry}
    (h : x ∈ entriesAll parent index ns) : ∃ n ∈ ns, ∃ i, x ∈ n.entries (some parent) i := by
  induction ns generalizing index with
  | nil => cases h
  | cons n ns ih =>
    rw [entriesAll, List.mem_append] at h
    rcases h with h | h
    · exact ⟨n, List.mem_cons_self, index, h⟩
    · obtain ⟨m, hm, hx⟩ := ih h
      exact ⟨m, List.mem_cons_of_mem n hm, hx⟩

mutual

theorem map_id_entries (parent : Option Nat) (index : Nat) (n : Node) :
    (n.entries parent index).map Entry.id = n.descendants.map Node.id := by
  match n with
  | ⟨id, kind, span, children⟩ =>
    rw [entries, descendants, List.map_cons, List.map_cons, map_id_entriesAll id 0 children]

theorem map_id_entriesAll (parent index : Nat) (ns : List Node) :
    (entriesAll parent index ns).map Entry.id = (descendantsAll ns).map Node.id := by
  match ns with
  | [] => rfl
  | n :: ns =>
    rw [entriesAll, descendantsAll, List.map_append, List.map_append,
      map_id_entries (some parent) index n, map_id_entriesAll parent (index + 1) ns]

end

mutual

theorem entries_shift (δ : Int) (parent : Option Nat) (index : Nat) (n : Node) :
    (n.shift δ).entries parent index = (n.entries parent index).map (Entry.shift δ) := by
  match n with
  | ⟨id, kind, span, children⟩ =>
    have hids : (shiftAll δ children).map Node.id = children.map Node.id := by
      rw [shiftAll_eq_map, List.map_map]
      exact List.map_congr_left fun c _ => by rw [Function.comp_apply, shift_eq]
    rw [shift, entries, entries, hids, entriesAll_shift δ id 0 children, List.map_cons]
    rfl

theorem entriesAll_shift (δ : Int) (parent index : Nat) (ns : List Node) :
    entriesAll parent index (shiftAll δ ns) = (entriesAll parent index ns).map (Entry.shift δ) := by
  match ns with
  | [] => rfl
  | n :: ns =>
    rw [shiftAll, entriesAll, entriesAll, List.map_append, entries_shift δ (some parent) index n,
      entriesAll_shift δ parent (index + 1) ns]

end

/-- What is below a node that fits lies inside it. -/
theorem Fitted.span_of_mem_entries {n : Node} (h : n.Fitted) {parent : Option Nat} {index : Nat}
    {x : Entry} (hx : x ∈ n.entries parent index) :
    n.span.start ≤ x.span.start ∧ x.span.start ≤ x.span.stop ∧ x.span.stop ≤ n.span.stop := by
  induction h generalizing parent index with
  | token _ hs =>
    rw [entries_eq] at hx
    obtain rfl := List.mem_singleton.1 hx
    exact ⟨Nat.le_refl _, Nat.le_of_lt hs, Nat.le_refl _⟩
  | @node id kind span children _ _ hs _ ih =>
    rw [entries_eq] at hx
    rcases List.mem_cons.1 hx with rfl | hx
    · exact ⟨Nat.le_refl _, hs.le, Nat.le_refl _⟩
    · obtain ⟨c, hc, i, hx⟩ := mem_entriesAll hx
      have hin := ih c hc hx
      have hadjoin := hs.mem (List.mem_map_of_mem hc)
      simp only
      omega

theorem Tiled.span_of_mem_entries {n : Node} (h : n.Tiled) {parent : Option Nat} {index : Nat}
    {x : Entry} (hx : x ∈ n.entries parent index) : x.span.start ≤ x.span.stop := by
  rw [entries_eq] at hx
  rcases List.mem_cons.1 hx with rfl | hx
  · exact h.adjoin.le
  · obtain ⟨c, hc, i, hx⟩ := mem_entriesAll hx
    exact ((h.fitted c hc).span_of_mem_entries hx).2.1

end Node

/-! ## Entries around a node -/

namespace Crumb

/-- The entry of the node above, if the node in the middle has a given id. -/
def entry (k : Crumb) (ks : List Crumb) (id : Nat) : Entry :=
  ⟨k.id, k.kind, k.span, ks.head?.map Crumb.id, (⟨default, ks⟩ : Cursor).index,
    k.before.reverse.map Node.id ++ id :: k.after.map Node.id⟩

/-- The entries before a node at the end of a path, if it has a given id. -/
def entriesBefore : List Crumb → Nat → List Entry
  | [], _ => []
  | k :: ks, id => entriesBefore ks k.id ++ k.entry ks id :: Node.entriesAll k.id 0 k.before.reverse

/-- The entries after a node at the end of a path. -/
def entriesAfter : List Crumb → List Entry
  | [] => []
  | k :: ks => Node.entriesAll k.id (k.before.length + 1) k.after ++ entriesAfter ks

end Crumb

namespace Cursor

theorem parent?_map_id (c : Cursor) : (c.parent?.map fun p => p.focus.id) = c.path.head?.map Crumb.id := by
  obtain ⟨n, path⟩ := c
  cases path <;> rfl

mutual

theorem map_entry_descendantsFrom (path : List Crumb) (n : Node) :
    (descendantsFrom path n).map entry =
      n.entries (path.head?.map Crumb.id) (⟨n, path⟩ : Cursor).index := by
  match n with
  | ⟨id, kind, span, children⟩ =>
    rw [descendantsFrom, List.map_cons, map_entry_descendantsFromAll id kind span path [] children,
      Node.entries, entry, parent?_map_id]
    rfl

theorem map_entry_descendantsFromAll (id : Nat) (kind : Kind) (span : Span) (path : List Crumb)
    (before ns : List Node) :
    (descendantsFromAll id kind span path before ns).map entry =
      Node.entriesAll id before.length ns := by
  match ns with
  | [] => rfl
  | n :: ns =>
    rw [descendantsFromAll, List.map_append,
      map_entry_descendantsFrom (⟨id, kind, span, before, ns⟩ :: path) n,
      map_entry_descendantsFromAll id kind span path (n :: before) ns]
    rfl

end

/-- **The entries of a tree around one of its nodes.** -/
theorem root_entries (path : List Crumb) (n : Node) :
    (⟨n, path⟩ : Cursor).root.entries none 0 = Crumb.entriesBefore path n.id ++
      n.entries (path.head?.map Crumb.id) (⟨n, path⟩ : Cursor).index ++ Crumb.entriesAfter path := by
  induction path generalizing n with
  | nil => simp [root, Crumb.entriesBefore, Crumb.entriesAfter, index]
  | cons k ks ih =>
    rw [root_cons, ih, Node.entries_eq, Crumb.children_plug, Node.entriesAll_append,
      Node.entriesAll, Crumb.entriesBefore, Crumb.entriesAfter]
    simp [Crumb.plug, Crumb.entry, index]

end Cursor

theorem Tree.entries_eq (t : Tree) : t.entries = t.root.entries none 0 :=
  Cursor.map_entry_descendantsFrom [] t.root


theorem Cursor.entries_root (c : Cursor) : c.root.entries none 0 =
    Crumb.entriesBefore c.path c.focus.id ++ c.focus.entries (c.path.head?.map Crumb.id) c.index ++
      Crumb.entriesAfter c.path := root_entries c.path c.focus

theorem Cursor.entry_mem_root (c : Cursor) : c.entry ∈ c.root.entries none 0 := by
  rw [entries_root, Node.entries_eq, entry, parent?_map_id]
  simp

/-! ## Spans around an edit -/

/-- The place of a span after the text of another grew: spans before stay, spans after are moved, and
spans around it grow. -/
def Span.moved (s r : Span) (δ : Int) : Span :=
  if s.stop ≤ r.start then s else if r.stop ≤ s.start then s.shift δ else s.stretch δ

section Moved

variable {r s : Span} {δ : Int}

theorem Span.moved_before (h : s.stop ≤ r.start) : s.moved r δ = s := if_pos h

theorem Span.moved_after (hs : s.start ≤ s.stop) (hr : r.start < r.stop) (h : r.stop ≤ s.start) :
    s.moved r δ = s.shift δ := by
  rw [moved, if_neg (by omega), if_pos h]

theorem Span.moved_around (hr : r.start < r.stop) (h : s.contains r = true) :
    s.moved r δ = s.stretch δ := by
  obtain ⟨h₁, h₂⟩ := Cursor.contains_iff.1 h
  rw [moved, if_neg (by omega), if_neg (by omega)]

end Moved

/-- An entry after an edit in the place of a span. -/
def Entry.moved (r : Span) (δ : Int) (x : Entry) : Entry := { x with span := x.span.moved r δ }

/-- A level above a span: the siblings on both sides lie on their side of it. -/
structure Crumb.Beside (r : Span) (k : Crumb) : Prop where
  before : ∀ n ∈ k.before, n.Fitted ∧ n.span.stop ≤ r.start
  after : ∀ n ∈ k.after, n.Fitted ∧ r.stop ≤ n.span.start
  around : k.span.contains r = true

theorem Crumb.beside_of_tiled {k : Crumb} {n : Node} {r : Span} (h : (k.plug n).Tiled)
    (hr : n.span.contains r = true) : k.Beside r := by
  have hadjoin := h.adjoin
  rw [children_plug, List.map_append, List.map_cons, Adjoin.append_iff] at hadjoin
  obtain ⟨a, hbefore, ha, hle, hafter⟩ := hadjoin
  have hin := Cursor.contains_iff.1 hr
  refine ⟨fun m hm => ⟨h.fitted m (by simp [children_plug, hm]), ?_⟩,
    fun m hm => ⟨h.fitted m (by simp [children_plug, hm]), ?_⟩, Cursor.contains_iff.2 ?_⟩
  · have := hbefore.mem (List.mem_map_of_mem (List.mem_reverse.2 hm))
    omega
  · have := hafter.mem (List.mem_map_of_mem hm)
    omega
  · have h₁ : k.span.start ≤ a := hbefore.le
    have h₂ : n.span.stop ≤ k.span.stop := hafter.le
    omega

/-- The levels above a node lie around every span inside it. -/
theorem Cursor.beside_of_root {path : List Crumb} {n : Node} {r : Span}
    (h : (⟨n, path⟩ : Cursor).root.Tiled) (hk : (⟨n, path⟩ : Cursor).root.kind.isNode = true)
    (hr : n.span.contains r = true) : ∀ k ∈ path, k.Beside r := by
  induction path generalizing n with
  | nil => exact List.forall_mem_nil _
  | cons k ks ih =>
    have htiled : (k.plug n).Tiled := by
      rcases @onPath_of_root ks _ h hk with ⟨ht, _, _⟩ | ⟨hf, _⟩
      · exact ht
      · exact (hf.tiled (k.children_plug_ne n)).1
    have hbeside := Crumb.beside_of_tiled htiled hr
    exact List.forall_mem_cons.2 ⟨hbeside, ih h hk hbeside.around⟩

namespace Crumb

variable {r : Span} {δ : Int}

theorem entriesAll_before {k : Crumb} (h : k.Beside r) (parent index : Nat) :
    (Node.entriesAll parent index k.before.reverse).map (Entry.moved r δ) =
      Node.entriesAll parent index k.before.reverse := by
  refine (List.map_congr_left fun x hx => ?_).trans (List.map_id _)
  obtain ⟨n, hn, i, hx⟩ := Node.mem_entriesAll hx
  obtain ⟨hfit, hstop⟩ := h.before n (List.mem_reverse.1 hn)
  have := hfit.span_of_mem_entries hx
  rw [Entry.moved, Span.moved_before (by omega)]
  rfl

theorem entriesAll_after {k : Crumb} (h : k.Beside r) (hr : r.start < r.stop) (parent index : Nat) :
    (Node.entriesAll parent index k.after).map (Entry.moved r δ) =
      Node.entriesAll parent index (Node.shiftAll δ k.after) := by
  rw [Node.entriesAll_shift]
  refine List.map_congr_left fun x hx => ?_
  obtain ⟨n, hn, i, hx⟩ := Node.mem_entriesAll hx
  obtain ⟨hfit, hstart⟩ := h.after n hn
  have := hfit.span_of_mem_entries hx
  rw [Entry.moved, Span.moved_after this.2.1 hr (by omega), Entry.shift]

theorem index_grow (δ : Int) (ks : List Crumb) (m n : Node) :
    (⟨m, ks.map (grow δ)⟩ : Cursor).index = (⟨n, ks⟩ : Cursor).index := by
  cases ks <;> rfl

theorem head?_grow (δ : Int) (ks : List Crumb) :
    (ks.map (grow δ)).head?.map Crumb.id = ks.head?.map Crumb.id := by
  cases ks <;> rfl

theorem entry_grow {k : Crumb} (h : k.Beside r) (hr : r.start < r.stop) (ks : List Crumb)
    (id : Nat) : (k.grow δ).entry (ks.map (grow δ)) id = (k.entry ks id).moved r δ := by
  have hids : (Node.shiftAll δ k.after).map Node.id = k.after.map Node.id := by
    rw [Node.shiftAll_eq_map, List.map_map]
    exact List.map_congr_left fun c _ => by rw [Function.comp_apply, Node.shift_eq]
  rw [entry, entry, head?_grow, index_grow δ ks default default, Entry.moved,
    Span.moved_around hr h.around]
  simp only [grow, hids]

/-- Levels that grow keep their entries, each in its new place. -/
theorem entriesBefore_grow {ks : List Crumb} (h : ∀ k ∈ ks, k.Beside r) (hr : r.start < r.stop)
    (id : Nat) : entriesBefore (ks.map (grow δ)) id = (entriesBefore ks id).map (Entry.moved r δ) := by
  induction ks generalizing id with
  | nil => rfl
  | cons k ks ih =>
    obtain ⟨hk, hks⟩ := List.forall_mem_cons.1 h
    rw [List.map_cons, entriesBefore, entriesBefore, List.map_append, List.map_cons,
      entriesAll_before hk, entry_grow hk hr]
    exact congrArg (· ++ _) (ih hks k.id)

theorem entriesAfter_grow {ks : List Crumb} (h : ∀ k ∈ ks, k.Beside r) (hr : r.start < r.stop) :
    entriesAfter (ks.map (grow δ)) = (entriesAfter ks).map (Entry.moved r δ) := by
  induction ks with
  | nil => rfl
  | cons k ks ih =>
    obtain ⟨hk, hks⟩ := List.forall_mem_cons.1 h
    rw [List.map_cons, entriesAfter, entriesAfter, List.map_append, entriesAll_after hk hr, ih hks]
    rfl

end Crumb

/-! ## What is kept -/

/-- An entry outside the place of an edit, before and after it: the same but for its span, which
stays, is moved or grows. -/
structure Entry.Kept (c : Cursor) (δ : Int) (x y : Entry) : Prop where
  id : y.id = x.id
  kind : y.kind = x.kind
  parent : y.parent = x.parent
  index : y.index = x.index
  before : x.span.stop ≤ c.focus.span.start → y.span = x.span
  after : c.focus.span.stop ≤ x.span.start →
    (y.span.start : Int) = x.span.start + δ ∧ (y.span.stop : Int) = x.span.stop + δ
  around : x.id ∈ c.ancestors.map (fun a => a.focus.id) →
    y.span.start = x.span.start ∧ (y.span.stop : Int) = x.span.stop + δ

namespace Parse

variable {p q : Parse} {e : Edit} {c : Cursor} {n : Node}

theorem Faithful.nodup_entries (hp : p.Faithful) : (p.tree.entries.map Entry.id).Nodup := by
  rw [Tree.entries_eq, Node.map_id_entries]
  exact hp.ids

namespace Spliced

variable (hp : p.Faithful) (h : p.Spliced e c n q)

include hp h

theorem tiled : c.root.Tiled ∧ c.root.kind.isNode = true := by
  obtain ⟨f, _, hroot⟩ := hp.tree
  rw [h.root, hroot.kind]
  exact ⟨hroot.tiled, rfl⟩

theorem solid : c.focus.span.start < c.focus.span.stop := by
  obtain ⟨f, _, hroot⟩ := hp.tree
  exact (Cursor.placed_of_root hroot h.root h.below).fitted.1.solid

theorem beside : ∀ k ∈ c.path, k.Beside c.focus.span :=
  Cursor.beside_of_root (n := c.focus) (h.tiled hp).1 (h.tiled hp).2
    (Cursor.contains_iff.2 ⟨Nat.le_refl _, Nat.le_refl _⟩)

/-- A node above the place of an edit lies around it. -/
theorem contains_of_mem_ancestors {x : Entry} (hx : x ∈ p.tree.entries)
    (ha : x.id ∈ c.ancestors.map fun a => a.focus.id) : x.span.contains c.focus.span = true := by
  obtain ⟨a, ha, hid⟩ := List.mem_map.1 ha
  obtain ⟨hroot, hcontains⟩ := Cursor.ancestorsFrom_root ha
  have hmem : a.entry ∈ p.tree.entries := by
    rw [Tree.entries_eq, ← h.root]
    exact hroot ▸ a.entry_mem_root
  obtain rfl : a.entry = x := List.inj_on_of_nodup_map hp.nodup_entries hmem hx hid
  exact hcontains (h.tiled hp).1 (h.tiled hp).2

theorem kept {x y : Entry} (hx : x ∈ p.tree.entries) (hid : y.id = x.id) (hkind : y.kind = x.kind)
    (hparent : y.parent = x.parent) (hindex : y.index = x.index)
    (hspan : y.span = x.span.moved c.focus.span e.delta) : x.Kept c e.delta y := by
  have hr := h.solid hp
  have hstop := h.stop
  have hle : x.span.start ≤ x.span.stop := by
    rw [Tree.entries_eq, ← h.root] at hx
    exact (h.tiled hp).1.span_of_mem_entries hx
  refine ⟨hid, hkind, hparent, hindex, fun hb => ?_, fun ha => ?_, fun ha => ?_⟩
  · rw [hspan, Span.moved_before hb]
  · rw [hspan, Span.moved_after hle hr ha]
    exact ⟨shiftOffset_cast (by omega), shiftOffset_cast (by omega)⟩
  · have hin := h.contains_of_mem_ancestors hp hx ha
    obtain ⟨h₁, h₂⟩ := Cursor.contains_iff.1 hin
    rw [hspan, Span.moved_around hr hin]
    exact ⟨rfl, shiftOffset_cast (by omega)⟩

theorem entries_eq : q.tree.entries =
    Crumb.entriesBefore (c.path.map (Crumb.grow e.delta)) n.id ++
      n.entries (c.path.head?.map Crumb.id) c.index ++
        (Crumb.entriesAfter c.path).map (Entry.moved c.focus.span e.delta) := by
  have hroot := Cursor.root_entries (c.path.map (Crumb.grow e.delta)) n
  rw [Crumb.entriesAfter_grow (h.beside hp) (h.solid hp), Crumb.head?_grow,
    Crumb.index_grow e.delta c.path n c.focus] at hroot
  rw [Tree.entries_eq, h.tree]
  exact hroot

/-- A leaf with another span in the same place: all entries are kept. -/
theorem entries_of_leaf (hid : n.id = c.focus.id) (hkind : n.kind = c.focus.kind)
    (hspan : n.span = c.focus.span.stretch e.delta) (hn : n.children = c.focus.children)
    (hc : c.focus.children = []) :
    q.tree.entries = p.tree.entries.map (Entry.moved c.focus.span e.delta) := by
  rw [h.entries_eq hp, Tree.entries_eq, ← h.root, Cursor.entries_root, hid,
    Crumb.entriesBefore_grow (h.beside hp) (h.solid hp), List.map_append, List.map_append]
  have hleaf : n.entries (c.path.head?.map Crumb.id) c.index =
      (c.focus.entries (c.path.head?.map Crumb.id) c.index).map
        (Entry.moved c.focus.span e.delta) := by
    rw [Node.entries_eq, Node.entries_eq, hid, hkind, hspan, hn, hc,
      ← Span.moved_around (h.solid hp) (Cursor.contains_iff.2 ⟨Nat.le_refl _, Nat.le_refl _⟩)]
    rfl
  rw [hleaf]

/-- A new node in the place of an old one: entries outside are kept, but for the one child of the
node above. -/
theorem exists_kept {k : Crumb} {ks : List Crumb} (hpath : c.path = k :: ks) {x : Entry}
    (hx : x ∈ p.tree.entries) (hout : x.id ∉ c.focus.descendants.map Node.id) :
    ∃ y ∈ q.tree.entries, x.Kept c e.delta y ∧ y.children =
      if x.id = k.id then x.children.set c.index n.id else x.children := by
  have hbeside := h.beside hp
  rw [hpath, List.forall_mem_cons] at hbeside
  have hold : p.tree.entries = Crumb.entriesBefore ks k.id ++ k.entry ks c.focus.id ::
      Node.entriesAll k.id 0 k.before.reverse ++ c.focus.entries (some k.id) c.index ++
        Crumb.entriesAfter c.path := by
    rw [Tree.entries_eq, ← h.root, Cursor.entries_root, hpath]
    rfl
  have hnew : q.tree.entries =
      (Crumb.entriesBefore ks k.id).map (Entry.moved c.focus.span e.delta) ++
        (k.entry ks n.id).moved c.focus.span e.delta ::
          (Node.entriesAll k.id 0 k.before.reverse).map (Entry.moved c.focus.span e.delta) ++
        n.entries (some k.id) c.index ++
          (Crumb.entriesAfter c.path).map (Entry.moved c.focus.span e.delta) := by
    rw [h.entries_eq hp, hpath, List.map_cons, Crumb.entriesBefore,
      Crumb.entry_grow hbeside.1 (h.solid hp), Crumb.entriesAll_before hbeside.1]
    exact congrArg (· ++ _ ++ _ ++ _) (Crumb.entriesBefore_grow hbeside.2 (h.solid hp) k.id)
  by_cases hid : x.id = k.id
  · -- the node above
    have habove : k.entry ks c.focus.id ∈ p.tree.entries := by
      rw [hold]
      simp
    obtain rfl : x = k.entry ks c.focus.id :=
      List.inj_on_of_nodup_map hp.nodup_entries hx habove hid
    refine ⟨(k.entry ks n.id).moved c.focus.span e.delta, ?_, h.kept hp hx rfl rfl rfl rfl rfl, ?_⟩
    · rw [hnew]
      simp
    · rw [if_pos hid]
      simp [Entry.moved, Crumb.entry, Cursor.index, hpath]
  · refine ⟨x.moved c.focus.span e.delta, ?_, h.kept hp hx rfl rfl rfl rfl rfl, (if_neg hid).symm⟩
    rw [hold] at hx
    simp only [List.mem_append, List.mem_cons] at hx
    rw [hnew]
    simp only [List.mem_append, List.mem_cons]
    rcases hx with ((hx | rfl | hx) | hx) | hx
    · exact .inl (.inl (.inl (List.mem_map_of_mem hx)))
    · exact absurd rfl hid
    · exact .inl (.inl (.inr (.inr (List.mem_map_of_mem hx))))
    · rw [← Node.map_id_entries (some k.id) c.index] at hout
      exact absurd (List.mem_map_of_mem hx) hout
    · exact .inr (List.mem_map_of_mem hx)

end Spliced

end Parse

/-- **What an edit leaves alone.** If it is answered by one token, no entry is new and every entry is
kept with its children. If it is answered by one statement, every entry outside the old statement is
kept with its children, but for the one child of the node above that is now the new statement; the
ids of the new statement and of all below it are the ones given out since. The nodes that are reused
and those that are made anew are all nodes, and just the token or the new statement is made anew. -/
theorem local_frame {text : Text} {options : Options} {old : Parse} {e : Edit} {answer : Reparse}
    {log : List LogEntry} (h : Parse.Reachable text options old) (he : e.span.start ≤ e.span.stop)
    (hr : old.reparse e = .ok (answer, log)) :
    (answer.strategy = .token → ∃ c, c = old.tree.cover e.span ∧ c.focus.kind.isToken = true ∧
      answer.parse.tree.allocated = old.tree.allocated ∧
      (∀ x ∈ old.tree.entries, ∃ y ∈ answer.parse.tree.entries,
        x.Kept c e.delta y ∧ y.children = x.children) ∧
      answer.reused + answer.reparsed = answer.parse.tree.nodeCount ∧ answer.reparsed = 1) ∧
    (answer.strategy = .statement → ∃ c parent d : Cursor,
      (old.tree.cover e.span).ancestors.find? Parse.isOuterStatement = some c ∧
      c.parent? = some parent ∧
      (∀ x ∈ old.tree.entries, x.id ∉ c.focus.descendants.map Node.id →
        ∃ y ∈ answer.parse.tree.entries, x.Kept c e.delta y ∧ y.children =
          if x.id = parent.focus.id then x.children.set c.index d.focus.id else x.children) ∧
      d.root = answer.parse.tree.root ∧ d.entry.parent = some parent.focus.id ∧
      d.index = c.index ∧
      d.focus.descendants.map Node.id = List.range' old.tree.allocated
        (answer.parse.tree.allocated - old.tree.allocated) ∧
      answer.reused + answer.reparsed = answer.parse.tree.nodeCount ∧
      answer.reparsed = d.focus.size) := by
  have hp := h.faithful
  have hcount := (h.step he hr).accounted.nodeCount_eq
  obtain ⟨a, m, z, hcut, _, htoken | hstatement | ⟨reason, rfl⟩⟩ := Parse.reparse_cases he hr
  · obtain ⟨c, n, hc, hs, hk, hn, hallocated, _, hstrategy, hreused, hreparsed⟩ :=
      Parse.relexToken?_spliced hp hcut htoken
    rw [hstrategy]
    refine ⟨fun _ => ⟨c, hc, hk, hallocated, fun x hx => ?_, ?_, hreparsed⟩, Strategy.noConfusion⟩
    · obtain ⟨f, _, hroot⟩ := hp.tree
      have hleaf := (Cursor.placed_of_root hroot hs.root hs.below).fitted.1.children_eq_nil hk
      have hentries := hs.entries_of_leaf hp (by rw [hn]) (by rw [hn]) (by rw [hn]) (by rw [hn]) hleaf
      refine ⟨x.moved c.focus.span e.delta, ?_, hs.kept hp hx rfl rfl rfl rfl rfl, rfl⟩
      rw [hentries]
      exact List.mem_map_of_mem hx
    · have := answer.parse.tree.root.size_eq
      omega
  · obtain ⟨c, n, hc, hs, hids, hallocated, _, _, hstrategy, hreused, hreparsed⟩ :=
      Parse.reparseStatement_spliced hp hcut hstatement
    obtain ⟨k, ks, hpath⟩ := List.exists_cons_of_ne_nil hs.below
    have hparent : c.parent? = some ⟨k.plug c.focus, ks⟩ := by rw [Cursor.parent?, hpath]
    rw [hstrategy]
    refine ⟨Strategy.noConfusion, fun _ => ⟨c, _, ⟨n, c.path.map (Crumb.grow e.delta)⟩, hc, hparent,
      fun x hx hout => hs.exists_kept hp hpath hx hout, hs.tree.symm, ?_, ?_, ?_, ?_, hreparsed⟩⟩
    · rw [Cursor.entry, Cursor.parent?_map_id, hpath]
      rfl
    · exact Crumb.index_grow e.delta c.path n c.focus
    · rw [hids, hallocated, Nat.add_sub_cancel_left]
    · have hsize := c.size_le_splice n e.delta
      rw [← hs.tree] at hsize
      omega
  · exact ⟨Strategy.noConfusion, Strategy.noConfusion⟩

/-- An objective that gets a second term: the root is kept, with a new child and a later end. -/
theorem local_frame_sum : ∃ answer log, (parse ['x'] {}).reparse ⟨⟨1, 1⟩, ['+', 'y']⟩ =
    .ok (answer, log) ∧ answer.strategy = .statement ∧ ∃ y ∈ answer.parse.tree.entries,
      y.id = 0 ∧ y.kind = .document ∧ y.children = [5] ∧ y.span.start = 0 ∧ y.span.stop = 3 := by
  have hr : (parse ['x'] {}).reparse ⟨⟨1, 1⟩, ['+', 'y']⟩ =
      .ok ((parse ['x'] {}).reparseText ⟨⟨1, 1⟩, ['+', 'y']⟩ ['x', '+', 'y']) := rfl
  have hanswer : ((parse ['x'] {}).reparseText ⟨⟨1, 1⟩, ['+', 'y']⟩ ['x', '+', 'y']).1.strategy =
      .statement ∧ ((parse ['x'] {}).reparseText ⟨⟨1, 1⟩, ['+', 'y']⟩
        ['x', '+', 'y']).1.parse.tree.allocated = 12 := by decide +kernel
  have hroot : ⟨0, .document, ⟨0, 1⟩, none, 0, [1]⟩ ∈ (parse ['x'] {}).tree.entries := by
    decide +kernel
  have hplace : (((parse ['x'] {}).tree.cover ⟨1, 1⟩).ancestors.find? Parse.isOuterStatement).map
      (fun c => (c.focus.descendants.map Node.id, c.ancestors.map (fun a => a.focus.id), c.entry.parent,
        c.index)) = some ([1, 2, 3, 4], [1, 0], some 0, 0) := by decide +kernel
  generalize (parse ['x'] {}).reparseText ⟨⟨1, 1⟩, ['+', 'y']⟩ ['x', '+', 'y'] = r at hr hanswer
  obtain ⟨answer, log⟩ := r
  obtain ⟨hstrategy, hallocated⟩ := hanswer
  obtain ⟨c, parent, d, hc, hparent, hkept, _, _, _, hnew, _⟩ :=
    (local_frame (@Parse.Reachable.start ['x'] {}) (by decide) hr).2 hstrategy
  simp only [hc, Cursor.entry, hparent, Option.map_some, Option.some.injEq, Prod.mk.injEq] at hplace
  obtain ⟨hids, hancestors, hid, hindex⟩ := hplace
  have hd : d.focus.id = 5 := by
    have hold : (parse ['x'] {}).tree.allocated = 5 := by decide +kernel
    rw [Node.descendants_eq, List.map_cons, hold, hallocated] at hnew
    exact (List.cons.inj hnew).1
  obtain ⟨y, hy, hsame, hchildren⟩ := hkept _ hroot (by rw [hids]; decide)
  rw [hid, hindex, hd] at hchildren
  obtain ⟨hstart, hstop⟩ := hsame.around (by rw [hancestors]; decide)
  change (y.span.stop : Int) = (1 : Nat) + 2 at hstop
  exact ⟨answer, log, hr, hstrategy, y, hy, hsame.id, hsame.kind, hchildren, hstart, by omega⟩

end LpFormat
