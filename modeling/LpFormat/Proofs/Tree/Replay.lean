import LpFormat.Proofs.Tree.Skeleton
import LpFormat.Tree.Build

/-!
# Replaying events

Whatever nodes are open, the events of a skeleton add one node to the innermost of them. The
skeleton decides that node, together with the next id and the end of the last token before.

* `begun`, `endAfter`: what a replay leaves of the counters;
* `Skeleton.toNode`, `Skeleton.toNodes`: the nodes that are added, **`Builder.run_events`**;
  **`Node.ofEvents_eq`**: the nodes that come out;
* `Skeleton.ids_toNode`, `Skeleton.size_toNode`: their ids count up;
  `Skeleton.skeleton_toNode`: they stand for their skeletons;
* `Node.hull`, `Skeleton.span_of_mem_toNode`: the span of a node around its children; `Rising`,
  `Skeleton.forward_toNode`: it does not end before it starts if the spans of tokens never go back;
* `Node.raise`, `Skeleton.toNode_raise`: other ids; `leads`, `Skeleton.toNode_of_leads`: another
  position.
-/

namespace LpFormat

/-! ## Counters -/

/-- How many tokens and nodes some events begin. -/
def begun (es : List Event) : Nat := es.countP (· != .finish)

theorem begun_append (es fs : List Event) : begun (es ++ fs) = begun es + begun fs :=
  List.countP_append

theorem begun_enclosed (kind : Kind) (es : List Event) :
    begun (.start kind :: (es ++ [.finish])) = 1 + begun es := by
  rw [begun, List.countP_cons, List.countP_append, Nat.add_comm]
  rfl

/-- The end of the last token among some events, or a position if there is none. -/
def endAfter (position : Nat) (es : List Event) : Nat :=
  (leafSpans es).foldl (fun _ s => s.stop) position

theorem endAfter_append (position : Nat) (es fs : List Event) :
    endAfter position (es ++ fs) = endAfter (endAfter position es) fs := by
  rw [endAfter, leafSpans_append, List.foldl_append]
  rfl

theorem endAfter_enclosed (position : Nat) (kind : Kind) (es : List Event) :
    endAfter position (.start kind :: (es ++ [.finish])) = endAfter position es := by
  rw [endAfter, leafSpans_enclosed]
  rfl

/-! ## The nodes that are added -/

/-- The span from the first of some nodes to the last, or an empty one if there are none. -/
def Node.hull (position : Nat) (ns : List Node) : Span :=
  match ns.head?, ns.getLast? with
  | some first, some last => ⟨first.span.start, last.span.stop⟩
  | _, _ => .empty position

theorem Node.hull_cons (position position' : Nat) (n m : Node) (ms : List Node) :
    hull position (n :: m :: ms) = ⟨n.span.start, (hull position' (m :: ms)).stop⟩ := by
  simp only [hull, List.head?_cons, List.getLast?_cons_cons,
    List.getLast?_eq_some_getLast (List.cons_ne_nil m ms)]

theorem Node.hull_eq {ns : List Node} (hne : ns ≠ []) (position position' : Nat) :
    hull position ns = hull position' ns := by
  simp only [hull, List.head?_eq_some_head hne, List.getLast?_eq_some_getLast hne]

theorem OpenNode.close_eq (id : Nat) (kind : Kind) (position : Nat) (ns : List Node) :
    close ⟨id, kind, position, ns.reverse⟩ = ⟨id, kind, Node.hull position ns, ns⟩ := by
  have hspan : span ⟨id, kind, position, ns.reverse⟩ = Node.hull position ns := by
    cases hfirst : ns.head? <;> cases hlast : ns.getLast? <;>
      simp only [span, Node.hull, List.getLast?_reverse, List.head?_reverse, hfirst, hlast]
  rw [close, hspan, List.reverse_reverse]

namespace Skeleton

mutual

/-- The node for a skeleton, with ids from a number on, if the last token before it ends at a given
position. -/
def toNode (id position : Nat) : Skeleton → Node
  | leaf kind span => ⟨id, kind, span, []⟩
  | node kind children =>
    ⟨id, kind, Node.hull position (toNodes (id + 1) position children),
      toNodes (id + 1) position children⟩

/-- The nodes for a forest. -/
def toNodes (id position : Nat) : List Skeleton → List Node
  | [] => []
  | s :: ss =>
    s.toNode id position :: toNodes (id + begun s.events) (endAfter position s.events) ss

end

theorem id_toNode (id position : Nat) (s : Skeleton) : (s.toNode id position).id = id := by
  cases s <;> rfl

end Skeleton

namespace Builder

theorem run_append (b : Builder) (es fs : List Event) : b.run (es ++ fs) = (b.run es).run fs :=
  List.foldl_append

theorem run_finish (b : Builder) : b.run [.finish] = b.finish := rfl

/-- Adds finished nodes one after another. -/
def addAll (b : Builder) (ns : List Node) : Builder := ns.foldl add b

theorem addAll_root (nextId lastEnd : Nat) (ns roots : List Node) :
    addAll ⟨nextId, lastEnd, [], roots⟩ ns = ⟨nextId, lastEnd, [], ns.reverse ++ roots⟩ := by
  induction ns generalizing roots with
  | nil => rfl
  | cons n ns ih =>
    rw [List.reverse_cons, List.append_assoc]
    exact ih (n :: roots)

theorem addAll_opened (nextId lastEnd : Nat) (o : OpenNode) (os : List OpenNode)
    (ns roots : List Node) :
    addAll ⟨nextId, lastEnd, o :: os, roots⟩ ns =
      ⟨nextId, lastEnd, { o with children := ns.reverse ++ o.children } :: os, roots⟩ := by
  induction ns generalizing o with
  | nil => rfl
  | cons n ns ih =>
    rw [List.reverse_cons, List.append_assoc]
    exact ih { o with children := n :: o.children }

/-- The same state with other counters. -/
def count (b : Builder) (nextId lastEnd : Nat) : Builder := { b with nextId, lastEnd }

theorem add_count (b : Builder) (nextId lastEnd : Nat) (n : Node) :
    (b.add n).count nextId lastEnd = (b.count nextId lastEnd).add n := by
  obtain ⟨i, e, opened, roots⟩ := b
  cases opened <;> rfl

mutual

/-- **Replaying the events of a skeleton adds its node**, whatever is open. -/
theorem run_events (b : Builder) (s : Skeleton) :
    b.run s.events = (b.count (b.nextId + begun s.events) (endAfter b.lastEnd s.events)).add
      (s.toNode b.nextId b.lastEnd) := by
  match s with
  | .leaf kind span => rfl
  | .node kind children =>
    obtain ⟨nextId, lastEnd, opened, roots⟩ := b
    rw [Skeleton.events, begun_enclosed, endAfter_enclosed]
    change (run ⟨nextId + 1, lastEnd, ⟨nextId, kind, lastEnd, []⟩ :: opened, roots⟩
      (Skeleton.eventsAll children ++ [.finish])) = _
    rw [run_append, run_finish, run_eventsAll, count, addAll_opened, List.append_nil, Nat.add_assoc,
      finish]
    simp only [OpenNode.close_eq]
    rfl

/-- Replaying the events of a forest adds its nodes. -/
theorem run_eventsAll (b : Builder) (ss : List Skeleton) :
    b.run (Skeleton.eventsAll ss) =
      (b.count (b.nextId + begun (Skeleton.eventsAll ss))
        (endAfter b.lastEnd (Skeleton.eventsAll ss))).addAll
          (Skeleton.toNodes b.nextId b.lastEnd ss) := by
  match ss with
  | [] => rfl
  | s :: ss =>
    have hnext : (b.run s.events).nextId = b.nextId + begun s.events := by
      rw [run_events, add]
      split <;> rfl
    have hend : (b.run s.events).lastEnd = endAfter b.lastEnd s.events := by
      rw [run_events, add]
      split <;> rfl
    rw [Skeleton.eventsAll, run_append, run_eventsAll, hnext, hend, run_events, add_count,
      begun_append, endAfter_append, Nat.add_assoc]
    rfl

end

end Builder

/-- The events of a forest give its nodes. -/
theorem Node.ofEvents_eq (nextId position : Nat) (ss : List Skeleton) :
    ofEvents nextId position (Skeleton.eventsAll ss) =
      (Skeleton.toNodes nextId position ss, nextId + begun (Skeleton.eventsAll ss)) := by
  rw [ofEvents, Builder.run_eventsAll]
  simp only [Builder.init, Builder.count, Builder.addAll_root, List.append_nil, Builder.finishAll,
    List.foldl_nil, List.reverse_reverse]

/-! ## Ids and skeletons -/

namespace Skeleton

mutual

theorem ids_toNode (id position : Nat) (s : Skeleton) :
    (s.toNode id position).descendants.map Node.id = List.range' id (begun s.events) := by
  match s with
  | leaf kind span => rfl
  | node kind children =>
    rw [toNode, Node.descendants_eq, List.map_cons, ids_toNodes, events, begun_enclosed,
      Nat.add_comm 1, List.range'_succ]

theorem ids_toNodes (id position : Nat) (ss : List Skeleton) :
    ((toNodes id position ss).flatMap Node.descendants).map Node.id =
      List.range' id (begun (eventsAll ss)) := by
  match ss with
  | [] => rfl
  | s :: ss =>
    rw [toNodes, List.flatMap_cons, List.map_append, ids_toNode, ids_toNodes, eventsAll,
      begun_append, List.range'_append_1]

end

theorem size_toNode (id position : Nat) (s : Skeleton) :
    (s.toNode id position).size = begun s.events := by
  rw [← Node.length_ids, ids_toNode, List.length_range']

theorem size_toNodes (id position : Nat) (ss : List Skeleton) :
    ((toNodes id position ss).map Node.size).sum = begun (eventsAll ss) := by
  have hlength := congrArg List.length (ids_toNodes id position ss)
  simpa only [List.length_map, List.length_flatMap, Node.length_descendants,
    List.length_range'] using hlength

end Skeleton

/-- Whether a token has the kind of a token, and a node the kind of a node. -/
def Event.wellKinded : Event → Bool
  | start kind => kind.isNode
  | token kind _ => kind.isToken
  | finish => true

namespace Skeleton

theorem wellKinded_children {kind : Kind} {children : List Skeleton}
    (h : ∀ e ∈ (node kind children).events, e.wellKinded = true) :
    kind.isNode = true ∧ ∀ e ∈ eventsAll children, e.wellKinded = true := by
  rw [events, List.forall_mem_cons, List.forall_mem_append] at h
  exact ⟨h.1, h.2.1⟩

mutual

/-- The node of a skeleton stands for it. -/
theorem skeleton_toNode (id position : Nat) {s : Skeleton}
    (h : ∀ e ∈ s.events, e.wellKinded = true) : (s.toNode id position).skeleton = s := by
  match s with
  | leaf kind span =>
    have hk : kind.isToken = true := h _ List.mem_cons_self
    exact Node.skeleton_of_isToken hk
  | node kind children =>
    obtain ⟨hk, hc⟩ := wellKinded_children h
    rw [toNode, Node.skeleton_of_isNode hk, skeleton_toNodes (id + 1) position hc]

theorem skeleton_toNodes (id position : Nat) {ss : List Skeleton}
    (h : ∀ e ∈ eventsAll ss, e.wellKinded = true) :
    (toNodes id position ss).map Node.skeleton = ss := by
  match ss with
  | [] => rfl
  | s :: ss =>
    rw [eventsAll, List.forall_mem_append] at h
    rw [toNodes, List.map_cons, skeleton_toNode id position h.1, skeleton_toNodes _ _ h.2]

end

end Skeleton

/-! ## Spans -/

/-- Spans of which none starts before the one before it ends. -/
def Rising (start : Nat) : List Span → Prop
  | [] => True
  | s :: ss => start ≤ s.start ∧ s.start ≤ s.stop ∧ Rising s.stop ss

theorem Rising.append_iff {start : Nat} {ss ts : List Span} :
    Rising start (ss ++ ts) ↔ Rising start ss ∧ Rising (ss.foldl (fun _ s => s.stop) start) ts := by
  induction ss generalizing start with
  | nil => exact (iff_of_eq (true_and _)).symm
  | cons s ss ih =>
    rw [List.cons_append, Rising, Rising, ih, List.foldl_cons]
    tauto

theorem Rising.of_pairwise {start : Nat} {ss : List Span} (hstart : ∀ s ∈ ss, start ≤ s.start)
    (hle : ∀ s ∈ ss, s.start ≤ s.stop) (h : ss.Pairwise fun s t => s.stop ≤ t.start) :
    Rising start ss := by
  induction ss generalizing start with
  | nil => trivial
  | cons s ss ih =>
    obtain ⟨hs, h⟩ := List.pairwise_cons.1 h
    exact ⟨hstart s List.mem_cons_self, hle s List.mem_cons_self,
      ih hs (fun t ht => hle t (List.mem_cons_of_mem _ ht)) h⟩

/-- No node below and including a node ends before it starts. -/
def Node.Forward (n : Node) : Prop := ∀ m ∈ n.descendants, m.span.start ≤ m.span.stop

/-- A span inside two offsets. -/
structure Span.Within (s : Span) (a z : Nat) : Prop where
  start : a ≤ s.start
  le : s.start ≤ s.stop
  stop : s.stop ≤ z

namespace Skeleton

mutual

theorem within_toNode {position : Nat} (id : Nat) {s : Skeleton}
    (h : Rising position (leafSpans s.events)) :
    (s.toNode id position).span.Within position (endAfter position s.events) := by
  match s with
  | leaf kind span => exact ⟨h.1, h.2.1, Nat.le_refl _⟩
  | node kind children =>
    rw [events, leafSpans_enclosed] at h
    rw [events, endAfter_enclosed]
    exact within_toNodes (id + 1) h

/-- The hull of nodes whose tokens never go back. -/
theorem within_toNodes {position : Nat} (id : Nat) {ss : List Skeleton}
    (h : Rising position (leafSpans (eventsAll ss))) :
    (Node.hull position (toNodes id position ss)).Within position
      (endAfter position (eventsAll ss)) := by
  match ss with
  | [] => exact ⟨Nat.le_refl _, Nat.le_refl _, Nat.le_refl _⟩
  | [s] =>
    rw [eventsAll_singleton] at h ⊢
    exact within_toNode id h
  | s :: t :: ss =>
    rw [eventsAll, leafSpans_append, Rising.append_iff] at h
    have hs := within_toNode id h.1
    have hts := @within_toNodes _ (id + begun s.events) (t :: ss) h.2
    have hend := hts.stop
    have hstart := hts.start
    have hle := hts.le
    have hfirst := hs.stop
    rw [toNodes, toNodes, Node.hull_cons position (endAfter position s.events), eventsAll,
      endAfter_append]
    exact ⟨hs.start, (hs.le.trans hfirst).trans (hstart.trans hle), hend⟩

end

mutual

theorem forward_toNode {position : Nat} (id : Nat) {s : Skeleton}
    (h : Rising position (leafSpans s.events)) : (s.toNode id position).Forward := by
  match s with
  | leaf kind span => exact List.forall_mem_singleton.2 h.2.1
  | node kind children =>
    have hself := (within_toNode id h).le
    rw [events, leafSpans_enclosed] at h
    rw [toNode] at hself ⊢
    rw [Node.Forward, Node.descendants_eq]
    exact List.forall_mem_cons.2 ⟨hself, forward_toNodes (id + 1) h⟩

theorem forward_toNodes {position : Nat} (id : Nat) {ss : List Skeleton}
    (h : Rising position (leafSpans (eventsAll ss))) :
    ∀ m ∈ (toNodes id position ss).flatMap Node.descendants, m.span.start ≤ m.span.stop := by
  match ss with
  | [] => exact List.forall_mem_nil _
  | s :: ss =>
    rw [eventsAll, leafSpans_append, Rising.append_iff] at h
    rw [toNodes, List.flatMap_cons]
    exact List.forall_mem_append.2 ⟨forward_toNode id h.1, forward_toNodes _ h.2⟩

end

mutual

/-- Nodes with children span from the first to the last. -/
theorem span_of_mem_toNode {id position : Nat} {s : Skeleton} {m : Node}
    (hm : m ∈ (s.toNode id position).descendants) (hne : m.children ≠ []) (position' : Nat) :
    m.span = Node.hull position' m.children := by
  match s with
  | leaf kind span =>
    obtain rfl := List.mem_singleton.1 hm
    exact absurd rfl hne
  | node kind children =>
    rw [toNode, Node.descendants_eq] at hm
    rcases List.mem_cons.1 hm with rfl | hm
    · exact Node.hull_eq hne _ _
    · exact span_of_mem_toNodes hm hne position'

theorem span_of_mem_toNodes {id position : Nat} {ss : List Skeleton} {m : Node}
    (hm : m ∈ (toNodes id position ss).flatMap Node.descendants) (hne : m.children ≠ [])
    (position' : Nat) : m.span = Node.hull position' m.children := by
  match ss with
  | [] => cases hm
  | s :: ss =>
    rw [toNodes, List.flatMap_cons] at hm
    rcases List.mem_append.1 hm with hm | hm
    · exact span_of_mem_toNode hm hne position'
    · exact span_of_mem_toNodes hm hne position'

end

end Skeleton

/-! ## Other ids, other positions -/

namespace Node

mutual

/-- A node with all ids raised. -/
def raise (base : Nat) : Node → Node
  | ⟨id, kind, span, children⟩ => ⟨base + id, kind, span, raiseAll base children⟩

/-- Some nodes with all ids raised. -/
def raiseAll (base : Nat) : List Node → List Node
  | [] => []
  | n :: ns => n.raise base :: raiseAll base ns

end

theorem span_raise (base : Nat) (n : Node) : (n.raise base).span = n.span := by
  obtain ⟨id, kind, span, children⟩ := n
  rw [raise]

theorem raiseAll_eq_map (base : Nat) (ns : List Node) : raiseAll base ns = ns.map (raise base) := by
  induction ns with
  | nil => rfl
  | cons n ns ih => rw [raiseAll, ih, List.map_cons]

theorem hull_raiseAll (base position : Nat) (ns : List Node) :
    hull position (raiseAll base ns) = hull position ns := by
  rw [raiseAll_eq_map, hull, hull, List.head?_map, List.getLast?_map]
  cases ns.head? <;> cases ns.getLast? <;> simp [span_raise]

end Node

/-- Whether some events come to a token before any node is finished. -/
def leads : List Event → Bool
  | .start _ :: es => leads es
  | .token _ _ :: _ => true
  | _ => false

namespace Skeleton

mutual

/-- Replaying the same events behind other ids gives the same nodes with their ids raised. -/
theorem toNode_raise (base id position : Nat) (s : Skeleton) :
    (s.toNode id position).raise base = s.toNode (base + id) position := by
  match s with
  | leaf kind span => rfl
  | node kind children =>
    have hchildren := toNodes_raise base (id + 1) position children
    rw [toNode, toNode, Node.raise, hchildren, Nat.add_assoc, ← hchildren, Node.hull_raiseAll]

theorem toNodes_raise (base id position : Nat) (ss : List Skeleton) :
    Node.raiseAll base (toNodes id position ss) = toNodes (base + id) position ss := by
  match ss with
  | [] => rfl
  | s :: ss =>
    rw [toNodes, toNodes, Node.raiseAll, toNode_raise, toNodes_raise, Nat.add_assoc]

end

mutual

theorem leads_append (s : Skeleton) (es : List Event) : leads (s.events ++ es) = leads s.events := by
  match s with
  | leaf kind span => rfl
  | node kind children =>
    rw [events, List.cons_append, leads, leads, List.append_assoc]
    exact (leads_eventsAll_append children es).trans (leads_eventsAll_append children []).symm

theorem leads_eventsAll_append (ss : List Skeleton) (es : List Event) :
    leads (eventsAll ss ++ (.finish :: es)) = leads (eventsAll ss) := by
  match ss with
  | [] => rfl
  | s :: ss => rw [eventsAll, List.append_assoc, leads_append, leads_append]

end

theorem endAfter_of_leads {es : List Event} (h : leads es = true) (position position' : Nat) :
    endAfter position es = endAfter position' es := by
  induction es with
  | nil => cases h
  | cons e es ih =>
    cases e with
    | start kind => exact ih h
    | token kind span => rfl
    | finish => cases h

mutual

/-- If a token comes before any node is finished, it does not matter where the last token before
ended. -/
theorem toNode_of_leads {s : Skeleton} (h : leads s.events = true) (id position position' : Nat) :
    s.toNode id position = s.toNode id position' := by
  match s with
  | leaf kind span => rfl
  | node kind children =>
    rw [events, leads, leads_eventsAll_append] at h
    obtain ⟨hne, heq⟩ := toNodes_of_leads h (id + 1) position position'
    rw [toNode, toNode, heq, Node.hull_eq hne]

theorem toNodes_of_leads {ss : List Skeleton} (h : leads (eventsAll ss) = true)
    (id position position' : Nat) : toNodes id position' ss ≠ [] ∧
      toNodes id position ss = toNodes id position' ss := by
  match ss with
  | [] => cases h
  | s :: ss =>
    rw [eventsAll, leads_append] at h
    refine ⟨List.cons_ne_nil _ _, ?_⟩
    rw [toNodes, toNodes, toNode_of_leads h id position position',
      endAfter_of_leads h position position']

end

end Skeleton

end LpFormat
