import LpFormat.Proofs.Checked.Basic
import LpFormat.Proofs.Reparse.Frame

/-!
# Trees in an arena

A tree is stored as two lists: one cell for each node, in which other nodes are named by their
indices, and the children of all nodes, those of one node side by side. Every look into the two lists
is tested.

* `Cell`, `Arena`, `Arena.Has`: the cell of an entry and the children it leads to;
* `Arena.Sound`: children of different cells are stored in different places;
* `Arena.load`: reads a tree back, `Arena.load_eq`;
* `Assembly`: an arena that is being filled from events, `Assembly.run`;
  **`Assembly.run_events`**, **`Assembly.build_forest`**: the events of skeletons put the entries of
  their nodes into the arena; `Assembly.build_eq`, `Assembly.build_document`: nodes that fit.
-/

namespace LpFormat

/-- What is stored of a node. -/
structure Cell where
  kind : Kind
  span : Span
  /-- The index of the node above. -/
  parent : Option Nat
  /-- The place among the children of the node above. -/
  index : Nat
  /-- The place of the first child in the list of all children. -/
  start : Nat
  /-- The number of children. -/
  count : Nat
deriving DecidableEq, Repr

/-- The cells of all nodes, and the children of all nodes. -/
structure Arena where
  cells : List Cell
  links : List Nat
deriving DecidableEq, Repr

namespace Arena

/-- An entry is stored: in its cell, and with the children that the cell leads to. -/
def Has (a : Arena) (x : Entry) : Prop :=
  ∃ start, a.cells[x.id]? = some ⟨x.kind, x.span, x.parent, x.index, start, x.children.length⟩ ∧
    ∀ i < x.children.length, a.links[start + i]? = x.children[i]?

/-- The children of all cells are stored, and those of different cells in different places. -/
structure Sound (a : Arena) : Prop where
  bound : ∀ c ∈ a.cells, c.start + c.count ≤ a.links.length
  apart : ∀ (i j : Nat) (c d : Cell), a.cells[i]? = some c → a.cells[j]? = some d → i ≠ j →
    ∀ k < c.count, ∀ l < d.count, c.start + k ≠ d.start + l

/-- An entry stays stored where its cell stays and children are only added. -/
theorem Has.mono {a b : Arena} {x : Entry} (h : a.Has x) (hc : b.cells[x.id]? = a.cells[x.id]?)
    (hl : a.links <+: b.links) : b.Has x := by
  obtain ⟨start, hcell, hchildren⟩ := h
  refine ⟨start, hc.trans hcell, fun i hi => ?_⟩
  obtain ⟨more, hmore⟩ := hl
  have hlt : start + i < a.links.length := by
    by_contra hge
    have := hchildren i hi
    rw [List.getElem?_eq_none (by omega), List.getElem?_eq_getElem hi] at this
    cases this
  rw [← hmore, List.getElem?_append_left hlt, hchildren i hi]

/-- A cell that gets its children stores the entry. -/
theorem has_set {a : Arena} {x : Entry} (h : x.id < a.cells.length) :
    Has ⟨a.cells.set x.id ⟨x.kind, x.span, x.parent, x.index, a.links.length, x.children.length⟩,
      a.links ++ x.children⟩ x := by
  refine ⟨a.links.length, List.getElem?_set_self h, fun i _ => ?_⟩
  rw [List.getElem?_append_right (Nat.le_add_right _ _), Nat.add_sub_cancel_left]

/-- One arena goes on where another ends. -/
structure Grows (a b : Arena) : Prop where
  cells : a.cells <+: b.cells
  links : a.links <+: b.links

theorem Grows.refl (a : Arena) : a.Grows a := ⟨List.prefix_rfl, List.prefix_rfl⟩

theorem Grows.trans {a b c : Arena} (h : a.Grows b) (h' : b.Grows c) : a.Grows c :=
  ⟨h.cells.trans h'.cells, h.links.trans h'.links⟩

theorem Grows.has {a b : Arena} {x : Entry} (h : a.Grows b) (hx : a.Has x) : b.Has x := by
  refine hx.mono ?_ h.links
  obtain ⟨start, hcell, _⟩ := hx
  obtain ⟨more, hmore⟩ := h.cells
  rw [← hmore, List.getElem?_append_left (List.getElem?_eq_some_iff.1 hcell).1]

/-! ## Reading a tree -/

/-- Reads the tree below a cell, which has a given place; nodes nested too deep fail. -/
def load (a : Arena) : Nat → Option Nat → Nat → Nat → Checked Node
  | 0, _, _, _ => .error .endless
  | depth + 1, parent, index, id => do
    let cell ← Checked.get a.cells id
    if cell.parent = parent ∧ cell.index = index then
      let children ← (List.range cell.count).mapM fun i => do
        let child ← Checked.get a.links (cell.start + i)
        a.load depth (some id) i child
      return ⟨id, cell.kind, cell.span, children⟩
    else .error (.astray id)

/-- A tree whose entries are stored is read without fault. -/
theorem load_eq {a : Arena} {n : Node} {parent : Option Nat} {index depth : Nat}
    (h : ∀ x ∈ n.entries parent index, a.Has x) (hd : n.size ≤ depth) :
    a.load depth parent index n.id = .ok n := by
  induction n using Node.rec (motive_2 := fun ns => ∀ (parent index depth : Nat),
    (∀ x ∈ Node.entriesAll parent index ns, a.Has x) → Node.sizeAll ns ≤ depth →
      ∀ i c, ns[i]? = some c → a.load depth (some parent) (index + i) c.id = .ok c)
    generalizing parent index depth with
  | mk id kind span children ih =>
    rw [Node.size] at hd
    obtain ⟨depth, rfl⟩ : ∃ d, depth = d + 1 := ⟨depth - 1, by omega⟩
    rw [Node.entries, List.forall_mem_cons] at h
    obtain ⟨⟨start, hcell, hlinks⟩, hbelow⟩ := h
    simp only [List.length_map] at hcell hlinks
    have hchildren : (List.range children.length).mapM (fun i => do
        let child ← Checked.get a.links (start + i)
        a.load depth (some id) i child) = .ok children := by
      refine Checked.mapM_range_eq fun i c hc => ?_
      have hlink := hlinks i (List.getElem?_eq_some_iff.1 hc).1
      rw [List.getElem?_map, hc] at hlink
      rw [Checked.get_eq hlink, Checked.ok_bind]
      simpa using ih id 0 depth hbelow (by omega) i c hc
    rw [load, Checked.get_eq hcell, Checked.ok_bind, if_pos ⟨rfl, rfl⟩, hchildren]
    rfl
  | nil parent index depth h hd i c hc => cases hc
  | cons n ns ihn ihs parent index depth h hd i c hc =>
    rw [Node.entriesAll, List.forall_mem_append] at h
    rw [Node.sizeAll] at hd
    cases i with
    | zero =>
      obtain rfl : n = c := by simpa using hc
      exact ihn h.1 (by omega)
    | succ i =>
      rw [Nat.add_comm i 1, ← Nat.add_assoc]
      exact ihs parent (index + 1) depth h.2 (by omega) i c (by simpa using hc)

end Arena

/-! ## Filling an arena -/

/-- An arena that is being filled. -/
structure Assembly where
  arena : Arena
  /-- The open nodes, innermost first, with the children so far, last first. -/
  opened : List (Nat × List Nat)
  /-- The nodes outside all open ones, last first. -/
  roots : List Nat
  /-- The node above those, and their place among its children. -/
  above : Option (Nat × Nat)
  /-- The end of the last token. -/
  lastEnd : Nat

namespace Assembly

/-- The node above the next one, and the place of the next one among its children. -/
def place (b : Assembly) : Option Nat × Nat :=
  match b.opened with
  | (id, children) :: _ => (some id, children.length)
  | [] => (b.above.map Prod.fst, (b.above.map Prod.snd).getD 0)

/-- Adds a node to the innermost open one. -/
def push (b : Assembly) (id : Nat) : Assembly :=
  match b.opened with
  | (o, children) :: os => { b with opened := (o, id :: children) :: os }
  | [] => { b with roots := id :: b.roots }

/-- Makes a cell for a node. -/
def alloc (b : Assembly) (kind : Kind) (span : Span) : Assembly :=
  let cell : Cell := ⟨kind, span, b.place.1, b.place.2, 0, 0⟩
  let arena : Arena := ⟨b.arena.cells ++ [cell], b.arena.links⟩
  push { b with arena } b.arena.cells.length

/-- The span from the first of some children, which come last first, to the last. -/
def spanOf (a : Arena) (position : Span) (children : List Nat) : Checked Span :=
  match children.getLast?, children.head? with
  | some first, some last => do
    let first ← Checked.get a.cells first
    let last ← Checked.get a.cells last
    Checked.span first.span.start last.span.stop
  | _, _ => .ok position

/-- Finishes the innermost open node, if there is one. -/
def finish (b : Assembly) : Checked Assembly :=
  match b.opened with
  | [] => .ok b
  | (id, children) :: opened => do
    let cell ← Checked.get b.arena.cells id
    let span ← spanOf b.arena cell.span children
    let cell := { cell with span, start := b.arena.links.length, count := children.length }
    let arena : Arena := ⟨b.arena.cells.set id cell, b.arena.links ++ children.reverse⟩
    return { b with arena, opened }

/-- Replays one event. -/
def step (b : Assembly) : Event → Checked Assembly
  | .start kind =>
    let c := b.alloc kind (.empty b.lastEnd)
    .ok { c with opened := (b.arena.cells.length, []) :: c.opened }
  | .token kind span => .ok { b.alloc kind span with lastEnd := span.stop }
  | .finish => b.finish

/-- Replays events. -/
def run (b : Assembly) (events : List Event) : Checked Assembly := events.foldlM step b

/-- Replays events into an arena and finishes all nodes. -/
def build (arena : Arena) (above : Option (Nat × Nat)) (position : Nat) (events : List Event) :
    Checked (Arena × List Nat) := do
  let b ← run ⟨arena, [], [], above, position⟩ events
  let b ← b.opened.foldlM (fun b _ => b.finish) b
  return (b.arena, b.roots.reverse)

theorem run_cons {b b' : Assembly} {e : Event} (h : b.step e = .ok b') (es : List Event) :
    b.run (e :: es) = b'.run es := by
  rw [run, List.foldlM_cons, h, Checked.ok_bind]
  rfl

theorem run_append {b b' : Assembly} {es : List Event} (h : b.run es = .ok b') (fs : List Event) :
    b.run (es ++ fs) = b'.run fs := by
  rw [run, List.foldlM_append]
  change (b.run es >>= fun b => b.run fs) = _
  rw [h, Checked.ok_bind]

theorem alloc_arena (b : Assembly) (kind : Kind) (span : Span) : (b.alloc kind span).arena =
    ⟨b.arena.cells ++ [⟨kind, span, b.place.1, b.place.2, 0, 0⟩], b.arena.links⟩ := by
  simp only [alloc, push]
  split <;> rfl

/-- What was added stays added when other cells are filled. -/
theorem alloc_with (b : Assembly) (kind : Kind) (span : Span) (arena : Arena) (lastEnd : Nat) :
    ({ b.alloc kind span with arena, lastEnd } : Assembly) =
      push { b with arena, lastEnd } b.arena.cells.length := by
  simp only [alloc, push]
  split <;> rfl

theorem step_finish {b : Assembly} {id : Nat} {ids : List Nat} {os : List (Nat × List Nat)} {cell : Cell}
    {span : Span} (hb : b.opened = (id, ids.reverse) :: os) (hcell : b.arena.cells[id]? = some cell)
    (hspan : spanOf b.arena cell.span ids.reverse = .ok span) :
    b.step .finish = .ok { b with
      arena := ⟨b.arena.cells.set id
        ⟨cell.kind, span, cell.parent, cell.index, b.arena.links.length, ids.length⟩,
          b.arena.links ++ ids⟩
      opened := os } := by
  rw [step, finish, hb]
  simp only
  rw [Checked.get_eq hcell, Checked.ok_bind, hspan, Checked.ok_bind, List.reverse_reverse,
    List.length_reverse]
  rfl

/-! ## The entries of what is replayed -/

theorem exists_cell {a : Arena} {ns : List Node} {o index : Nat}
    (h : ∀ x ∈ Node.entriesAll o index ns, a.Has x) {n : Node} (hn : n ∈ ns) :
    ∃ cell, a.cells[n.id]? = some cell ∧ cell.span = n.span := by
  induction ns generalizing index with
  | nil => cases hn
  | cons m ns ih =>
    rw [Node.entriesAll, List.forall_mem_append, Node.entries_eq, List.forall_mem_cons] at h
    rcases List.mem_cons.1 hn with rfl | hn
    · obtain ⟨start, hcell, _⟩ := h.1.1
      exact ⟨_, hcell, rfl⟩
    · exact ih h.2 hn

/-- The span of a node whose children are stored. -/
theorem spanOf_eq {a : Arena} {ns : List Node} {o : Nat} (h : ∀ x ∈ Node.entriesAll o 0 ns, a.Has x)
    {position : Nat} (hs : (Node.hull position ns).start ≤ (Node.hull position ns).stop) :
    spanOf a (.empty position) (ns.map Node.id).reverse = .ok (Node.hull position ns) := by
  by_cases hne : ns = []
  · rw [hne]
    rfl
  · obtain ⟨c, hc, hcspan⟩ := exists_cell h (List.head_mem hne)
    obtain ⟨d, hd, hdspan⟩ := exists_cell h (List.getLast_mem hne)
    simp only [Node.hull, List.head?_eq_some_head hne, List.getLast?_eq_some_getLast hne] at hs ⊢
    simp only [spanOf, List.getLast?_reverse, List.head?_reverse, List.head?_map, List.getLast?_map,
      List.head?_eq_some_head hne, List.getLast?_eq_some_getLast hne, Option.map_some]
    rw [Checked.get_eq hc, Checked.get_eq hd, Checked.ok_bind, Checked.ok_bind, hcspan, hdspan,
      Checked.span_eq hs]

/-- A node that was begun is finished behind its children, and is stored with them then. -/
theorem finish_enclosed {b c : Assembly} {kind : Kind} {ns : List Node} {os : List (Nat × List Nat)}
    (hopen : c.opened = (b.arena.cells.length, (ns.map Node.id).reverse) :: os)
    (hgrows : (b.alloc kind (.empty b.lastEnd)).arena.Grows c.arena)
    (hhas : ∀ x ∈ Node.entriesAll b.arena.cells.length 0 ns, c.arena.Has x)
    (hids : ∀ x ∈ Node.entriesAll b.arena.cells.length 0 ns, b.arena.cells.length < x.id)
    (hspan : (Node.hull b.lastEnd ns).start ≤ (Node.hull b.lastEnd ns).stop) :
    ∃ arena, c.step .finish = .ok { c with arena, opened := os } ∧ b.arena.Grows arena ∧
      arena.cells.length = c.arena.cells.length ∧
      ∀ x ∈ (⟨b.arena.cells.length, kind, Node.hull b.lastEnd ns, ns⟩ : Node).entries
        b.place.1 b.place.2, arena.Has x := by
  rw [alloc_arena] at hgrows
  obtain ⟨more, hmore⟩ := hgrows.cells
  rw [List.append_assoc] at hmore
  have hcell : c.arena.cells[b.arena.cells.length]? =
      some ⟨kind, .empty b.lastEnd, b.place.1, b.place.2, 0, 0⟩ := by
    rw [← hmore, List.getElem?_append_right (Nat.le_refl _), Nat.sub_self]
    rfl
  refine ⟨_, step_finish hopen hcell (spanOf_eq hhas hspan), ⟨?_, ?_⟩, List.length_set, ?_⟩
  · rw [← hmore, List.set_append_right _ _ (Nat.le_refl _), Nat.sub_self]
    exact List.prefix_append _ _
  · exact hgrows.links.trans (List.prefix_append _ _)
  · rw [Node.entries, List.forall_mem_cons]
    have hlt := (List.getElem?_eq_some_iff.1 hcell).1
    have hself := @Arena.has_set c.arena ⟨b.arena.cells.length, kind, Node.hull b.lastEnd ns,
      b.place.1, b.place.2, ns.map Node.id⟩ hlt
    rw [List.length_map] at hself ⊢
    refine ⟨hself, fun x hx => (hhas x hx).mono ?_ (List.prefix_append _ _)⟩
    exact List.getElem?_set_ne (Nat.ne_of_lt (hids x hx))

mutual

/-- **Replaying the events of a skeleton adds its node, with its entries**, whatever is open. -/
theorem run_events (b : Assembly) {s : Skeleton}
    (hs : (s.toNode b.arena.cells.length b.lastEnd).Forward) :
    ∃ arena, b.run s.events =
        .ok (push { b with arena, lastEnd := endAfter b.lastEnd s.events } b.arena.cells.length) ∧
      b.arena.Grows arena ∧ arena.cells.length = b.arena.cells.length + begun s.events ∧
      ∀ x ∈ (s.toNode b.arena.cells.length b.lastEnd).entries b.place.1 b.place.2, arena.Has x := by
  match s with
  | .leaf kind span =>
    refine ⟨(b.alloc kind span).arena, ?_, ⟨?_, ?_⟩, ?_, ?_⟩
    · rw [Skeleton.events, run_cons (show b.step (.token kind span) =
        .ok { b.alloc kind span with lastEnd := span.stop } from rfl), ← alloc_with b kind span]
      rfl
    · rw [alloc_arena]
      exact List.prefix_append _ _
    · rw [alloc_arena]
    · rw [alloc_arena, List.length_append]
      rfl
    · rw [alloc_arena, Skeleton.toNode, Node.entries, List.forall_mem_cons]
      refine ⟨⟨0, List.getElem?_concat_length, fun i hi => ?_⟩, List.forall_mem_nil _⟩
      exact absurd hi (Nat.not_lt_zero i)
  | .node kind children =>
    -- the node is begun, its children are added, and it is finished
    rw [Skeleton.toNode, Node.Forward, Node.descendants_eq, List.forall_mem_cons] at hs
    generalize hc : b.alloc kind (.empty b.lastEnd) = c
    have harena := b.alloc_arena kind (.empty b.lastEnd)
    rw [hc] at harena
    have hlength : c.arena.cells.length = b.arena.cells.length + 1 := by
      rw [harena, List.length_append, List.length_singleton]
    have hstart : b.step (.start kind) = .ok { c with
        opened := (b.arena.cells.length, []) :: c.opened
        lastEnd := b.lastEnd } := by
      rw [step, hc, ← hc, alloc, push]
      split <;> rfl
    have hopen := @run_eventsAll { c with
      opened := (b.arena.cells.length, []) :: c.opened
      lastEnd := b.lastEnd } _ [] c.opened rfl children
    simp only [hlength, List.append_nil] at hopen
    obtain ⟨a, hrun, hgrows, hcount, hhas⟩ := hopen hs.2
    have hids : ∀ x ∈ Node.entriesAll b.arena.cells.length 0
        (Skeleton.toNodes (b.arena.cells.length + 1) b.lastEnd children),
        b.arena.cells.length < x.id := by
      intro x hx
      have hmem := List.mem_map_of_mem (f := Entry.id) hx
      rw [Node.map_id_entriesAll, Node.descendantsAll_eq_flatMap, Skeleton.ids_toNodes,
        List.mem_range'_1] at hmem
      exact hmem.1
    obtain ⟨a', hfinish, hgrows', hcount', hhas'⟩ := @finish_enclosed b { c with
      arena := a
      lastEnd := endAfter b.lastEnd (Skeleton.eventsAll children)
      opened := _ :: c.opened } kind _ c.opened rfl (hc ▸ hgrows) hhas hids hs.1
    refine ⟨a', ?_, hgrows', ?_, hhas'⟩
    · rw [Skeleton.events, run_cons hstart, run_append hrun, run_cons hfinish, endAfter_enclosed,
        ← alloc_with b kind (.empty b.lastEnd), hc]
      rfl
    · rw [hcount', hcount, Skeleton.events, begun_enclosed, Nat.add_assoc]

/-- What is replayed inside an open node is added to its children. -/
theorem run_eventsAll {b : Assembly} {o : Nat} {children : List Nat} {os : List (Nat × List Nat)}
    (hb : b.opened = (o, children) :: os) {ss : List Skeleton}
    (hs : ∀ m ∈ (Skeleton.toNodes b.arena.cells.length b.lastEnd ss).flatMap Node.descendants,
      m.span.start ≤ m.span.stop) :
    ∃ arena, b.run (Skeleton.eventsAll ss) = .ok { b with
        arena
        lastEnd := endAfter b.lastEnd (Skeleton.eventsAll ss)
        opened := (o, ((Skeleton.toNodes b.arena.cells.length b.lastEnd ss).map Node.id).reverse ++
          children) :: os } ∧
      b.arena.Grows arena ∧
      arena.cells.length = b.arena.cells.length + begun (Skeleton.eventsAll ss) ∧
      ∀ x ∈ Node.entriesAll o children.length (Skeleton.toNodes b.arena.cells.length b.lastEnd ss),
        arena.Has x := by
  match ss with
  | [] =>
    refine ⟨b.arena, ?_, .refl _, rfl, List.forall_mem_nil _⟩
    obtain ⟨arena, opened, roots, above, lastEnd⟩ := b
    obtain rfl : opened = _ := hb
    rfl
  | s :: ss =>
    rw [Skeleton.toNodes, List.flatMap_cons, List.forall_mem_append] at hs
    obtain ⟨a₁, hrun₁, hgrows₁, hlength₁, hhas₁⟩ := run_events b hs.1
    rw [push] at hrun₁
    simp only [hb] at hrun₁
    have hrest := @run_eventsAll { b with
      arena := a₁
      lastEnd := endAfter b.lastEnd s.events
      opened := (o, b.arena.cells.length :: children) :: os } _ _ _ rfl ss
    simp only [hlength₁] at hrest
    obtain ⟨a₂, hrun₂, hgrows₂, hlength₂, hhas₂⟩ := hrest hs.2
    refine ⟨a₂, ?_, hgrows₁.trans hgrows₂, ?_, ?_⟩
    · rw [Skeleton.eventsAll, run_append hrun₁, hrun₂, endAfter_append, Skeleton.toNodes,
        List.map_cons, List.reverse_cons, List.append_assoc, Skeleton.id_toNode]
      rfl
    · rw [hlength₂, Skeleton.eventsAll, begun_append, Nat.add_assoc]
    · have hplace : b.place = (some o, children.length) := by rw [place, hb]
      rw [hplace] at hhas₁
      rw [Skeleton.toNodes, Node.entriesAll, List.forall_mem_append]
      exact ⟨fun x hx => hgrows₂.has (hhas₁ x hx), hhas₂⟩

end

/-- What is replayed outside all nodes is added to the roots. -/
theorem run_roots {b : Assembly} (hb : b.opened = []) {ss : List Skeleton}
    (hs : ∀ m ∈ (Skeleton.toNodes b.arena.cells.length b.lastEnd ss).flatMap Node.descendants,
      m.span.start ≤ m.span.stop) :
    ∃ arena, b.run (Skeleton.eventsAll ss) = .ok { b with
        arena
        lastEnd := endAfter b.lastEnd (Skeleton.eventsAll ss)
        roots := ((Skeleton.toNodes b.arena.cells.length b.lastEnd ss).map Node.id).reverse ++
          b.roots } ∧
      b.arena.Grows arena ∧
      arena.cells.length = b.arena.cells.length + begun (Skeleton.eventsAll ss) ∧
      ∀ n ∈ Skeleton.toNodes b.arena.cells.length b.lastEnd ss,
        ∀ x ∈ n.entries b.place.1 b.place.2, arena.Has x := by
  induction ss generalizing b with
  | nil => exact ⟨b.arena, rfl, .refl _, rfl, List.forall_mem_nil _⟩
  | cons s ss ih =>
    rw [Skeleton.toNodes, List.flatMap_cons, List.forall_mem_append] at hs
    obtain ⟨a₁, hrun₁, hgrows₁, hlength₁, hhas₁⟩ := run_events b hs.1
    have hpush : push { b with arena := a₁, lastEnd := endAfter b.lastEnd s.events }
        b.arena.cells.length = { b with
          arena := a₁
          lastEnd := endAfter b.lastEnd s.events
          roots := b.arena.cells.length :: b.roots } := by
      simp only [push, hb]
    rw [hpush] at hrun₁
    have hrest := @ih { b with
      arena := a₁
      lastEnd := endAfter b.lastEnd s.events
      roots := b.arena.cells.length :: b.roots } hb
    simp only [hlength₁] at hrest
    obtain ⟨a₂, hrun₂, hgrows₂, hlength₂, hhas₂⟩ := hrest hs.2
    refine ⟨a₂, ?_, hgrows₁.trans hgrows₂, ?_, ?_⟩
    · rw [Skeleton.eventsAll, run_append hrun₁, hrun₂, endAfter_append, Skeleton.toNodes,
        List.map_cons, List.reverse_cons, List.append_assoc, Skeleton.id_toNode]
      rfl
    · rw [hlength₂, Skeleton.eventsAll, begun_append, Nat.add_assoc]
    · rw [Skeleton.toNodes]
      exact List.forall_mem_cons.2 ⟨fun x hx => hgrows₂.has (hhas₁ x hx), hhas₂⟩

/-- **The events of a forest put its nodes into an arena, without fault**, if no span goes back. -/
theorem build_forest (arena : Arena) (above : Option (Nat × Nat)) (position : Nat)
    {ss : List Skeleton}
    (hs : ∀ m ∈ (Skeleton.toNodes arena.cells.length position ss).flatMap Node.descendants,
      m.span.start ≤ m.span.stop) :
    ∃ arena', build arena above position (Skeleton.eventsAll ss) =
        .ok (arena', (Skeleton.toNodes arena.cells.length position ss).map Node.id) ∧
      arena.Grows arena' ∧
      arena'.cells.length = arena.cells.length + begun (Skeleton.eventsAll ss) ∧
      ∀ n ∈ Skeleton.toNodes arena.cells.length position ss,
        ∀ x ∈ n.entries (above.map Prod.fst) ((above.map Prod.snd).getD 0), arena'.Has x := by
  obtain ⟨arena', hrun, hgrows, hlength, hhas⟩ :=
    @run_roots ⟨arena, [], [], above, position⟩ rfl ss hs
  refine ⟨arena', ?_, hgrows, hlength, hhas⟩
  rw [build, hrun, Checked.ok_bind]
  change Except.ok (arena', (((Skeleton.toNodes arena.cells.length position ss).map
    Node.id).reverse ++ []).reverse) = _
  rw [List.append_nil, List.reverse_reverse]

/-- The events of nodes that fit put them into an arena, without fault. -/
theorem build_eq {ns : List Node} (h : ∀ n ∈ ns, n.Fitted) {arena : Arena}
    (hids : Node.Numbered arena.cells.length ns) (parent index position : Nat) :
    ∃ arena', build arena (some (parent, index)) position (Skeleton.eventsAll (ns.map Node.skeleton)) =
        .ok (arena', ns.map Node.id) ∧ arena.Grows arena' ∧
      arena'.cells.length = arena.cells.length + (ns.map Node.size).sum ∧
      ∀ n ∈ ns, ∀ x ∈ n.entries (some parent) index, arena'.Has x := by
  have hns := Node.toNodes_eq (fun n hn => (h n hn).toNode_eq) position hids
  have hbuild := @build_forest arena (some (parent, index)) position (ns.map Node.skeleton)
  rw [hns, ← Skeleton.size_toNodes arena.cells.length position, hns] at hbuild
  exact hbuild (List.forall_mem_flatMap.2 fun n hn => (h n hn).forward)

/-- The events of a document put its root into an arena, without fault. -/
theorem build_document {ns : List Node} (h : ∀ n ∈ ns, n.Fitted) (hids : Node.Numbered 1 ns) {z : Nat}
    (hs : Adjoin 0 z (ns.map Node.span)) :
    ∃ arena, build ⟨[], []⟩ none 0
        (.start .document :: (Skeleton.eventsAll (ns.map Node.skeleton) ++ [.finish])) =
          .ok (arena, [0]) ∧ arena.cells.length = 1 + (ns.map Node.size).sum ∧
      ∀ x ∈ (⟨0, .document, ⟨0, z⟩, ns⟩ : Node).entries none 0, arena.Has x := by
  have hns := Node.toNodes_eq (fun n hn => (h n hn).toNode_eq) 0 hids
  have hhull : Node.hull 0 ns = ⟨0, z⟩ := by
    by_cases hne : ns = []
    · subst hne
      obtain rfl : 0 = z := hs
      rfl
    · exact Node.hull_of_adjoin hne hs 0
  have hroot : Skeleton.toNodes 0 0 [.node .document (ns.map Node.skeleton)] =
      [⟨0, .document, ⟨0, z⟩, ns⟩] := by
    rw [Skeleton.toNodes, Skeleton.toNodes, Skeleton.toNode, hns, hhull]
  have hbuild := @build_forest ⟨[], []⟩ none 0 [.node .document (ns.map Node.skeleton)]
  rw [← Skeleton.size_toNodes 0 0, Skeleton.eventsAll_singleton, Skeleton.events] at hbuild
  simp only [List.length_nil, hroot, List.flatMap_singleton, List.map_singleton, List.sum_singleton,
    Node.size_eq, List.forall_mem_singleton, Node.descendants_eq, List.forall_mem_cons,
    Nat.zero_add] at hbuild
  obtain ⟨arena, hrun, _, hlength, hhas⟩ :=
    hbuild ⟨Nat.zero_le z, List.forall_mem_flatMap.2 fun n hn => (h n hn).forward⟩
  exact ⟨arena, hrun, hlength, hhas⟩

/-! ## Children stay apart -/

end Assembly

namespace Arena.Sound

variable {a : Arena}

theorem nil : Sound ⟨[], []⟩ where
  bound _ hc := by cases hc
  apart _ _ _ _ hc := by cases hc

theorem concat (h : a.Sound) {cell : Cell} (hstart : cell.start = 0) (hcount : cell.count = 0) :
    Sound ⟨a.cells ++ [cell], a.links⟩ := by
  have hcases : ∀ (i : Nat) (c : Cell), (a.cells ++ [cell])[i]? = some c →
      a.cells[i]? = some c ∨ c = cell := by
    intro i c hc
    rw [List.getElem?_append] at hc
    split_ifs at hc
    · exact .inl hc
    · exact .inr (List.mem_singleton.1 (List.mem_of_getElem? hc))
  refine ⟨fun c hc => ?_, fun i j c d hc hd hij k hk l hl => ?_⟩
  · rcases List.mem_append.1 hc with hc | hc
    · exact h.bound c hc
    · obtain rfl := List.mem_singleton.1 hc
      omega
  · rcases hcases i c hc with hc | rfl
    · rcases hcases j d hd with hd | rfl
      · exact h.apart i j c d hc hd hij k hk l hl
      · omega
    · omega

theorem fill (h : a.Sound) (id : Nat) {cell : Cell} {ids : List Nat}
    (hstart : cell.start = a.links.length) (hcount : cell.count = ids.length) :
    Sound ⟨a.cells.set id cell, a.links ++ ids⟩ := by
  have hcases : ∀ (i : Nat) (c : Cell), (a.cells.set id cell)[i]? = some c →
      i ≠ id ∧ a.cells[i]? = some c ∨ i = id ∧ c = cell := by
    intro i c hc
    by_cases hi : i = id
    · subst hi
      obtain ⟨hlt, heq⟩ := List.getElem?_eq_some_iff.1 hc
      rw [List.getElem_set_self] at heq
      exact .inr ⟨rfl, heq.symm⟩
    · rw [List.getElem?_set_ne (Ne.symm hi)] at hc
      exact .inl ⟨hi, hc⟩
  have hbound : ∀ (i : Nat) (c : Cell), a.cells[i]? = some c → c.start + c.count ≤ a.links.length :=
    fun i c hc => h.bound c (List.mem_of_getElem? hc)
  refine ⟨fun c hc => ?_, fun i j c d hc hd hij k hk l hl => ?_⟩
  · rw [List.length_append]
    rcases List.mem_or_eq_of_mem_set hc with hc | rfl
    · have := h.bound c hc
      omega
    · omega
  · rcases hcases i c hc with ⟨_, hc'⟩ | ⟨rfl, rfl⟩
    · rcases hcases j d hd with ⟨_, hd'⟩ | ⟨rfl, rfl⟩
      · exact h.apart i j c d hc' hd' hij k hk l hl
      · have := hbound i c hc'
        omega
    · rcases hcases j d hd with ⟨_, hd'⟩ | ⟨rfl, rfl⟩
      · have := hbound j d hd'
        omega
      · exact absurd rfl hij

end Arena.Sound

namespace Assembly

theorem finish_sound {b b' : Assembly} (h : b.arena.Sound) (hb : b.finish = .ok b') :
    b'.arena.Sound := by
  rw [finish] at hb
  split at hb
  · cases hb
    exact h
  · rename_i id children opened _
    obtain ⟨cell, _, hb⟩ := Checked.bind_eq_ok.1 hb
    obtain ⟨span, _, hb⟩ := Checked.bind_eq_ok.1 hb
    cases hb
    exact h.fill id rfl List.length_reverse.symm

theorem step_sound {b b' : Assembly} {e : Event} (h : b.arena.Sound) (hb : b.step e = .ok b') :
    b'.arena.Sound := by
  cases e with
  | start kind =>
    cases hb
    simp only [alloc_arena]
    exact h.concat rfl rfl
  | token kind span =>
    cases hb
    simp only [alloc_arena]
    exact h.concat rfl rfl
  | finish => exact finish_sound h hb

theorem build_sound {arena arena' : Arena} {above : Option (Nat × Nat)} {position : Nat}
    {events : List Event} {ids : List Nat} (h : arena.Sound)
    (hb : build arena above position events = .ok (arena', ids)) : arena'.Sound := by
  obtain ⟨b, hrun, hb⟩ := Checked.bind_eq_ok.1 hb
  obtain ⟨b', hfinish, hb⟩ := Checked.bind_eq_ok.1 hb
  cases hb
  refine Checked.foldlM_ok (fun b => b.arena.Sound) (fun _ _ _ h hb => finish_sound h hb) ?_ hfinish
  exact Checked.foldlM_ok (fun b => b.arena.Sound) (fun _ _ _ h hb => step_sound h hb) h hrun

end Assembly

end LpFormat
