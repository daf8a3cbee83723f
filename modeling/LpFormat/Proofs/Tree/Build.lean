import LpFormat.Proofs.Tree.Replay

/-!
# Trees from events

Replaying the events of a forest whose tokens adjoin gives fitted nodes with that forest as their
skeletons, and ids that count up in the order of the text.

* `Skeleton.Proper`: tokens are not empty and nodes have something in them;
* `Node.Numbered`: the ids of some nodes and of all below them count up from a number;
* `Node.Built`: nodes that stand for a forest, **`Skeleton.built_toNodes`**;
  `Node.Fitted.toNode_eq`: a node that fits is the one that its skeleton and its id decide;
* **`Node.ofEvents_eventsAll`**, **`Tree.ofEvents_document`**: the nodes and the tree that come out;
  `Node.ofEvents_single`: a single node.
-/

namespace LpFormat

/-- Tokens are not empty and nodes have something in them. -/
inductive Skeleton.Proper : Skeleton → Prop where
  | leaf {kind : Kind} {span : Span} (hk : kind.isToken = true) (hs : span.start < span.stop) :
      Proper (.leaf kind span)
  | node {kind : Kind} {children : List Skeleton} (hk : kind.isNode = true) (hne : children ≠ [])
      (hc : ∀ c ∈ children, Proper c) : Proper (.node kind children)

theorem Skeleton.Proper.leaves_ne {s : Skeleton} (h : s.Proper) : leavesOf s.events ≠ [] := by
  induction h with
  | leaf _ _ => exact List.cons_ne_nil _ _
  | @node kind children _ hne _ ih =>
    obtain ⟨c, cs, rfl⟩ := List.exists_cons_of_ne_nil hne
    rw [events, leavesOf_enclosed, eventsAll, leavesOf_append]
    exact fun hnil => ih c List.mem_cons_self (List.append_eq_nil_iff.1 hnil).1

/-- The ids of some nodes and of all below them count up from a number. -/
def Node.Numbered (first : Nat) (ns : List Node) : Prop :=
  (ns.flatMap descendants).map Node.id = List.range' first (ns.map size).sum

theorem Node.Numbered.of_cons {first : Nat} {n : Node} {ns : List Node}
    (h : Numbered first (n :: ns)) : Numbered first [n] ∧ Numbered (first + n.size) ns := by
  rw [Numbered, List.flatMap_cons, List.map_append, List.map_cons, List.sum_cons,
    ← List.range'_append_1] at h
  obtain ⟨h₁, h₂⟩ := List.append_inj h (by rw [length_ids, List.length_range'])
  refine ⟨?_, h₂⟩
  rw [Numbered, List.flatMap_singleton, List.map_singleton, List.sum_singleton, h₁]

/-- Nodes that stand for a forest, fit between two offsets and have ids from a number on. -/
structure Node.Built (ss : List Skeleton) (first a z : Nat) (ns : List Node) : Prop where
  skeletons : ns.map skeleton = ss
  fitted : ∀ n ∈ ns, n.Fitted
  spans : Adjoin a z (ns.map Node.span)
  numbered : Numbered first ns

/-- The hull of nodes that adjoin. -/
theorem Node.hull_of_adjoin {ns : List Node} (hne : ns ≠ []) {a z : Nat}
    (h : Adjoin a z (ns.map Node.span)) (position : Nat) : hull position ns = ⟨a, z⟩ := by
  have hfirst : (ns.head hne).span.start = a := by
    obtain ⟨n, ms, rfl⟩ := List.exists_cons_of_ne_nil hne
    exact h.1
  have hlast : (ns.getLast hne).span.stop = z := by
    rw [← List.dropLast_append_getLast hne, List.map_append, Adjoin.append_iff] at h
    obtain ⟨_, _, h⟩ := h
    exact h.2.2
  simp only [hull, List.head?_eq_some_head hne, List.getLast?_eq_some_getLast hne, hfirst, hlast]

namespace Skeleton

theorem Proper.wellKinded {s : Skeleton} (h : s.Proper) : ∀ e ∈ s.events, e.wellKinded = true := by
  induction h with
  | leaf hk _ => exact List.forall_mem_singleton.2 hk
  | node hk _ _ ih =>
    rw [events, List.forall_mem_cons, List.forall_mem_append, eventsAll_eq_flatMap,
      List.forall_mem_singleton]
    refine ⟨hk, fun e he => ?_, rfl⟩
    obtain ⟨c, hc, he⟩ := List.mem_flatMap.1 he
    exact ih c hc e he

theorem wellKinded_of_proper {ss : List Skeleton} (h : ∀ s ∈ ss, s.Proper) :
    ∀ e ∈ eventsAll ss, e.wellKinded = true := by
  rw [eventsAll_eq_flatMap]
  intro e he
  obtain ⟨s, hs, he⟩ := List.mem_flatMap.1 he
  exact (h s hs).wellKinded e he

/-- The node of a skeleton fits between two offsets if the tokens of the skeleton adjoin there. -/
def Fits (s : Skeleton) : Prop :=
  ∀ id position a z, Adjoin a z (leafSpans s.events) →
    (s.toNode id position).Fitted ∧ (s.toNode id position).span = ⟨a, z⟩

theorem fitted_toNodes {ss : List Skeleton} (hss : ∀ s ∈ ss, s.Fits) {a z : Nat}
    (h : Adjoin a z (leafSpans (eventsAll ss))) (id position : Nat) :
    (∀ n ∈ toNodes id position ss, n.Fitted) ∧
      Adjoin a z ((toNodes id position ss).map Node.span) := by
  induction ss generalizing a id position with
  | nil => exact ⟨List.forall_mem_nil _, h⟩
  | cons s ss ih =>
    obtain ⟨hs, hss⟩ := List.forall_mem_cons.1 hss
    rw [eventsAll, leafSpans_append, Adjoin.append_iff] at h
    obtain ⟨m, h₁, h₂⟩ := h
    obtain ⟨hfit, hspan⟩ := hs id position a m h₁
    obtain ⟨hfits, hspans⟩ := ih hss h₂ (id + begun s.events) (endAfter position s.events)
    rw [toNodes, List.map_cons, hspan]
    exact ⟨List.forall_mem_cons.2 ⟨hfit, hfits⟩, rfl, h₁.le, hspans⟩

theorem Proper.fits {s : Skeleton} (h : s.Proper) : s.Fits := by
  induction h with
  | leaf hk hs =>
    rintro id position a z ⟨rfl, _, rfl⟩
    exact ⟨.token hk hs, rfl⟩
  | @node kind children hk hne _ ih =>
    intro id position a z h
    rw [events, leafSpans_enclosed] at h
    obtain ⟨hfits, hspans⟩ := fitted_toNodes ih h (id + 1) position
    have hne' : toNodes (id + 1) position children ≠ [] := by
      obtain ⟨c, cs, rfl⟩ := List.exists_cons_of_ne_nil hne
      exact List.cons_ne_nil _ _
    rw [toNode, Node.hull_of_adjoin hne' hspans]
    exact ⟨.node hk hne' hspans hfits, rfl⟩

/-- **The nodes of a forest whose tokens adjoin.** -/
theorem built_toNodes {ss : List Skeleton} (hss : ∀ s ∈ ss, s.Proper) {a z : Nat}
    (h : Adjoin a z (leafSpans (eventsAll ss))) (first position : Nat) :
    Node.Built ss first a z (toNodes first position ss) := by
  obtain ⟨hfits, hspans⟩ := fitted_toNodes (fun s hs => (hss s hs).fits) h first position
  refine ⟨skeleton_toNodes first position (wellKinded_of_proper hss), hfits, hspans, ?_⟩
  rw [Node.Numbered, ids_toNodes, size_toNodes]

end Skeleton

/-! ## Nodes that fit -/

/-- Nodes with ids that count up are those of their skeletons, if each of them is. -/
theorem Node.toNodes_eq {ns : List Node} (h : ∀ n ∈ ns, ∀ {first : Nat} (position : Nat),
      Numbered first [n] → n.skeleton.toNode first position = n)
    {first : Nat} (position : Nat) (hids : Numbered first ns) :
    Skeleton.toNodes first position (ns.map skeleton) = ns := by
  induction ns generalizing first position with
  | nil => rfl
  | cons n ns ih =>
    obtain ⟨hn, hns⟩ := List.forall_mem_cons.1 h
    obtain ⟨hid, hids⟩ := hids.of_cons
    have hsize := n.skeleton.size_toNode first position
    rw [hn position hid] at hsize
    rw [List.map_cons, Skeleton.toNodes, hn position hid, ← hsize, ih hns _ hids]

/-- A node that fits is the one of its skeleton. -/
theorem Node.Fitted.toNode_eq {n : Node} (h : n.Fitted) {first : Nat} (position : Nat)
    (hids : Numbered first [n]) : n.skeleton.toNode first position = n := by
  induction h generalizing first position with
  | token hk _ =>
    obtain rfl := (List.cons.inj hids).1
    rw [skeleton_of_isToken hk, Skeleton.toNode]
  | @node id kind span children hk hne hs _ ih =>
    rw [Numbered, List.flatMap_singleton, descendants_eq, List.map_cons, List.map_singleton,
      List.sum_singleton, size_eq, Nat.add_comm 1, List.range'_succ, List.cons.injEq] at hids
    obtain ⟨rfl, hids⟩ := hids
    rw [skeleton_of_isNode hk, Skeleton.toNode, toNodes_eq (fun c hc => ih c hc) position hids,
      hull_of_adjoin hne hs]

theorem Node.Fitted.forward {n : Node} (h : n.Fitted) : n.Forward := by
  induction h with
  | token _ hs => exact List.forall_mem_singleton.2 (Nat.le_of_lt hs)
  | node _ _ hs _ ih =>
    rw [Forward, descendants_eq, List.forall_mem_cons]
    exact ⟨hs.le, List.forall_mem_flatMap.2 ih⟩

/-! ## Trees -/

/-- **The events of a forest whose tokens adjoin give nodes that stand for it.** -/
theorem Node.ofEvents_eventsAll {ss : List Skeleton} (hss : ∀ s ∈ ss, s.Proper) {a z : Nat}
    (h : Adjoin a z (leafSpans (Skeleton.eventsAll ss))) (nextId position : Nat) :
    ∃ ns, Built ss nextId a z ns ∧
      ofEvents nextId position (Skeleton.eventsAll ss) = (ns, nextId + (ns.map size).sum) := by
  refine ⟨_, Skeleton.built_toNodes hss h nextId position, ?_⟩
  rw [ofEvents_eq, Skeleton.size_toNodes]

/-- A single node that events give stands for their forest, and its ids count up. -/
theorem Node.ofEvents_single {ss : List Skeleton} (hss : ∀ s ∈ ss, s.Proper) {a z : Nat}
    (h : Adjoin a z (leafSpans (Skeleton.eventsAll ss))) {nextId position next : Nat} {n : Node}
    (hn : ofEvents nextId position (Skeleton.eventsAll ss) = ([n], next)) :
    n.Fitted ∧ n.span = ⟨a, z⟩ ∧ n.skeleton.events = Skeleton.eventsAll ss ∧
      n.descendants.map Node.id = List.range' nextId n.size ∧ next = nextId + n.size := by
  obtain ⟨ns, hbuilt, hns⟩ := ofEvents_eventsAll hss h nextId position
  rw [hn, Prod.mk.injEq] at hns
  obtain ⟨rfl, hnext⟩ := hns
  rw [List.map_singleton, List.sum_singleton] at hnext
  refine ⟨hbuilt.fitted n (List.mem_singleton.2 rfl), ?_, ?_, ?_, hnext⟩
  · obtain ⟨h₁, _, h₂⟩ := hbuilt.spans
    change n.span.stop = z at h₂
    rw [← h₁, ← h₂]
  · rw [← hbuilt.skeletons, List.map_singleton, Skeleton.eventsAll_singleton]
  · have hids := hbuilt.numbered
    rwa [Numbered, List.flatMap_singleton, List.map_singleton, List.sum_singleton] at hids

/-- **The events of a document give a root around the nodes of its forest.** The text may be empty;
the root then has no children. -/
theorem Tree.ofEvents_document {ss : List Skeleton} (hss : ∀ s ∈ ss, s.Proper) {z : Nat}
    (h : Adjoin 0 z (leafSpans (Skeleton.eventsAll ss))) (text : Text) :
    ∃ ns, Node.Built ss 1 0 z ns ∧
      Tree.ofEvents text (.start .document :: (Skeleton.eventsAll ss ++ [.finish])) =
        ⟨text, ⟨0, .document, ⟨0, z⟩, ns⟩, 1 + (ns.map Node.size).sum, 0⟩ := by
  have hbuilt := Skeleton.built_toNodes hss h 1 0
  have hhull : Node.hull 0 (Skeleton.toNodes 1 0 ss) = ⟨0, z⟩ := by
    by_cases hne : Skeleton.toNodes 1 0 ss = []
    · have hz := hbuilt.spans
      rw [hne] at hz ⊢
      obtain rfl : 0 = z := hz
      rfl
    · exact Node.hull_of_adjoin hne hbuilt.spans 0
  refine ⟨_, hbuilt, ?_⟩
  have hevents : .start .document :: (Skeleton.eventsAll ss ++ [.finish]) =
      Skeleton.eventsAll [.node .document ss] := by
    rw [Skeleton.eventsAll_singleton, Skeleton.events]
  rw [Tree.ofEvents, hevents, Node.ofEvents_eq, Skeleton.size_toNodes, Skeleton.eventsAll_singleton,
    Skeleton.events, begun_enclosed, Nat.zero_add]
  simp only [Skeleton.toNodes, Skeleton.toNode, Nat.zero_add, hhull, List.head?_cons,
    Option.getD_some]

end LpFormat
