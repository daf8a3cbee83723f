import LpFormat.Event
import LpFormat.Tree
import Mathlib

/-!
# Skeletons of trees

Without its ids and the spans of its nodes a tree is a `Skeleton`, which is what events describe.
In a tree whose nodes fit around their children, the skeleton gives back everything but the ids.

* `leavesOf`, `leafSpans`: the tokens among some events;
* `Skeleton`, `Skeleton.events`, **`Skeleton.eventsAll_injective`**: the events of a forest
  determine it;
* `Adjoin`: spans that follow one another without a gap;
* `Node.skeleton`, `Node.Fitted`: every node but a token has children, and they adjoin;
* **`Node.Fitted.shapes_eq`**: fitted nodes with one skeleton have the same kinds, spans and numbers
  of children throughout.
-/

namespace LpFormat

/-- Kind and span of a token event. -/
def Event.leaf? : Event → Option (Kind × Span)
  | token kind span => some (kind, span)
  | _ => none

/-- Kinds and spans of the tokens among some events. -/
def leavesOf (es : List Event) : List (Kind × Span) := es.filterMap Event.leaf?

theorem leavesOf_append (es fs : List Event) :
    leavesOf (es ++ fs) = leavesOf es ++ leavesOf fs := List.filterMap_append

theorem leavesOf_enclosed (kind : Kind) (es : List Event) :
    leavesOf (.start kind :: (es ++ [.finish])) = leavesOf es := by
  change leavesOf (es ++ [.finish]) = leavesOf es
  rw [leavesOf_append]
  exact List.append_nil _

/-- The spans of the tokens among some events. -/
def leafSpans (es : List Event) : List Span := (leavesOf es).map Prod.snd

theorem leafSpans_append (es fs : List Event) :
    leafSpans (es ++ fs) = leafSpans es ++ leafSpans fs := by
  rw [leafSpans, leavesOf_append, List.map_append]
  rfl

theorem leafSpans_enclosed (kind : Kind) (es : List Event) :
    leafSpans (.start kind :: (es ++ [.finish])) = leafSpans es := by
  rw [leafSpans, leavesOf_enclosed]
  rfl

/-- Moves both ends of a span. -/
def Span.map (f : Nat → Nat) (s : Span) : Span := ⟨f s.start, f s.stop⟩

/-- Moves the span of a token event. -/
def Event.move (f : Nat → Nat) : Event → Event
  | start kind => .start kind
  | token kind span => .token kind (span.map f)
  | finish => .finish

/-- Moves that agree on the ends of all tokens give the same events. -/
theorem map_move_congr {f g : Nat → Nat} {es : List Event}
    (h : ∀ s ∈ leafSpans es, s.map f = s.map g) :
    es.map (Event.move f) = es.map (Event.move g) := by
  refine List.map_congr_left fun e he => ?_
  cases e with
  | start kind => rfl
  | finish => rfl
  | token kind span =>
    have hmem : span ∈ leafSpans es :=
      List.mem_map.2 ⟨(kind, span), List.mem_filterMap.2 ⟨_, he, rfl⟩, rfl⟩
    rw [Event.move, Event.move, h span hmem]

theorem map_move_id (es : List Event) : es.map (Event.move id) = es := by
  refine (List.map_congr_left fun e _ => ?_).trans (List.map_id es)
  cases e <;> rfl

/-- A tree without ids and without the spans of nodes. -/
inductive Skeleton where
  | leaf (kind : Kind) (span : Span)
  | node (kind : Kind) (children : List Skeleton)

namespace Skeleton

/-- The kind of a leaf or a node. -/
def kind : Skeleton → Kind
  | leaf kind _ => kind
  | node kind _ => kind

mutual

/-- The events that describe a skeleton. -/
def events : Skeleton → List Event
  | leaf kind span => [.token kind span]
  | node kind children => .start kind :: (eventsAll children ++ [.finish])

/-- The events that describe a forest. -/
def eventsAll : List Skeleton → List Event
  | [] => []
  | s :: ss => s.events ++ eventsAll ss

end

theorem eventsAll_eq_flatMap (ss : List Skeleton) : eventsAll ss = ss.flatMap events := by
  induction ss with
  | nil => rfl
  | cons s ss ih => rw [eventsAll, ih, List.flatMap_cons]

theorem eventsAll_append (ss ts : List Skeleton) :
    eventsAll (ss ++ ts) = eventsAll ss ++ eventsAll ts := by
  simp only [eventsAll_eq_flatMap, List.flatMap_append]

theorem eventsAll_singleton (s : Skeleton) : eventsAll [s] = s.events := by
  rw [eventsAll, eventsAll, List.append_nil]

/-- A list of events does not go on with a piece of a forest. -/
def Stops (es : List Event) : Prop := ∀ e ∈ es.head?, e = .finish

theorem events_ne_finish (s : Skeleton) : ∃ e es, s.events = e :: es ∧ e ≠ .finish := by
  cases s with
  | leaf kind span => exact ⟨_, _, rfl, Event.noConfusion⟩
  | node kind children => exact ⟨_, _, rfl, Event.noConfusion⟩

mutual

theorem events_append_inj {s t : Skeleton} {es fs : List Event}
    (h : s.events ++ es = t.events ++ fs) : s = t ∧ es = fs := by
  cases s with
  | leaf kind span =>
    cases t with
    | leaf kind' span' =>
      simp only [events, List.cons_append, List.nil_append, List.cons.injEq,
        Event.token.injEq] at h
      obtain ⟨⟨rfl, rfl⟩, rfl⟩ := h
      exact ⟨rfl, rfl⟩
    | node kind' children' => simp [events] at h
  | node kind children =>
    cases t with
    | leaf kind' span' => simp [events] at h
    | node kind' children' =>
      simp only [events, List.cons_append, List.append_assoc, List.nil_append, List.cons.injEq,
        Event.start.injEq] at h
      obtain ⟨hc, he⟩ := @eventsAll_append_inj _ _ (.finish :: es) (.finish :: fs)
        (by rintro e ⟨⟩; rfl) (by rintro e ⟨⟩; rfl) h.2
      exact ⟨by rw [h.1, hc], (List.cons.inj he).2⟩

theorem eventsAll_append_inj {ss ts : List Skeleton} {es fs : List Event} (hes : Stops es)
    (hfs : Stops fs) (h : eventsAll ss ++ es = eventsAll ts ++ fs) : ss = ts ∧ es = fs := by
  cases ss with
  | nil =>
    cases ts with
    | nil => exact ⟨rfl, h⟩
    | cons t ts =>
      obtain ⟨e, rest, he, hne⟩ := t.events_ne_finish
      simp only [eventsAll, he, List.nil_append, List.cons_append] at h
      exact absurd (hes e (by rw [h]; rfl)) hne
  | cons s ss =>
    cases ts with
    | nil =>
      obtain ⟨e, rest, he, hne⟩ := s.events_ne_finish
      simp only [eventsAll, he, List.nil_append, List.cons_append] at h
      exact absurd (hfs e (by rw [← h]; rfl)) hne
    | cons t ts =>
      simp only [eventsAll, List.append_assoc] at h
      obtain ⟨hs, h⟩ := events_append_inj h
      obtain ⟨hss, he⟩ := eventsAll_append_inj hes hfs h
      exact ⟨by rw [hs, hss], he⟩

end

/-- **The events of a forest determine it.** -/
theorem eventsAll_injective {ss ts : List Skeleton} (h : eventsAll ss = eventsAll ts) : ss = ts :=
  (@eventsAll_append_inj _ _ [] [] (by rintro e ⟨⟩) (by rintro e ⟨⟩) (congrArg (· ++ []) h)).1

end Skeleton

/-! ## Spans that adjoin -/

/-- Spans that lead from one offset to another without a gap. -/
def Adjoin (start stop : Nat) : List Span → Prop
  | [] => start = stop
  | s :: ss => s.start = start ∧ s.start ≤ s.stop ∧ Adjoin s.stop stop ss

namespace Adjoin

variable {a b c d : Nat} {ss ts : List Span}

theorem le (h : Adjoin a b ss) : a ≤ b := by
  induction ss generalizing a with
  | nil => exact Nat.le_of_eq h
  | cons s ss ih =>
    have := ih h.2.2
    have := h.1
    have := h.2.1
    omega

theorem append_iff : Adjoin a b (ss ++ ts) ↔ ∃ m, Adjoin a m ss ∧ Adjoin m b ts := by
  induction ss generalizing a with
  | nil =>
    constructor
    · intro h
      exact ⟨a, rfl, h⟩
    · rintro ⟨m, rfl, h⟩
      exact h
  | cons s ss ih =>
    constructor
    · rintro ⟨hs, hle, h⟩
      obtain ⟨m, hm, h⟩ := ih.1 h
      exact ⟨m, ⟨hs, hle, hm⟩, h⟩
    · rintro ⟨m, ⟨hs, hle, hm⟩, h⟩
      exact ⟨hs, hle, ih.2 ⟨m, hm, h⟩⟩

theorem stop_unique (h : Adjoin a b ss) (h' : Adjoin a c ss) : b = c := by
  induction ss generalizing a with
  | nil => exact h.symm.trans h'
  | cons s ss ih => exact ih h.2.2 h'.2.2

theorem unique (hne : ss ≠ []) (h : Adjoin a b ss) (h' : Adjoin c d ss) : a = c ∧ b = d := by
  cases ss with
  | nil => exact absurd rfl hne
  | cons s ss => exact ⟨h.1.symm.trans h'.1, h.2.2.stop_unique h'.2.2⟩

theorem mem (h : Adjoin a b ss) {s : Span} (hs : s ∈ ss) :
    a ≤ s.start ∧ s.start ≤ s.stop ∧ s.stop ≤ b := by
  obtain ⟨xs, ys, rfl⟩ := List.append_of_mem hs
  obtain ⟨m, hx, hy⟩ := append_iff.1 h
  have := hx.le
  have := hy.2.2.le
  have := hy.1
  have := hy.2.1
  omega

theorem pairwise (h : Adjoin a b ss) : ss.Pairwise fun s t => s.stop ≤ t.start := by
  induction ss generalizing a with
  | nil => exact .nil
  | cons s ss ih =>
    obtain ⟨_, _, hss⟩ := h
    exact .cons (fun t ht => (hss.mem ht).1) (ih hss)

/-- Putting adjoining pieces in the place of every span keeps the spans adjoining. -/
theorem flatMap {α : Type} {xs : List α} {f : α → Span} {g : α → List Span}
    (h : Adjoin a b (xs.map f)) (hg : ∀ x ∈ xs, Adjoin (f x).start (f x).stop (g x)) :
    Adjoin a b (xs.flatMap g) := by
  induction xs generalizing a with
  | nil => exact h
  | cons x xs ih =>
    obtain ⟨rfl, _, h⟩ := h
    rw [List.flatMap_cons]
    refine append_iff.2 ⟨_, hg x List.mem_cons_self, ih h fun y hy => ?_⟩
    exact hg y (List.mem_cons_of_mem _ hy)

end Adjoin

/-! ## Fitted nodes -/

namespace Node

theorem sizeAll_eq_sum (ns : List Node) : sizeAll ns = (ns.map size).sum := by
  induction ns with
  | nil => rfl
  | cons n ns ih => rw [sizeAll, ih, List.map_cons, List.sum_cons]

theorem descendantsAll_eq_flatMap (ns : List Node) :
    descendantsAll ns = ns.flatMap descendants := by
  induction ns with
  | nil => rfl
  | cons n ns ih => rw [descendantsAll, ih, List.flatMap_cons]

theorem shiftAll_eq_map (delta : Int) (ns : List Node) :
    shiftAll delta ns = ns.map (shift delta) := by
  induction ns with
  | nil => rfl
  | cons n ns ih => rw [shiftAll, ih, List.map_cons]

theorem descendants_eq (n : Node) : n.descendants = n :: n.children.flatMap descendants := by
  obtain ⟨id, kind, span, children⟩ := n
  rw [descendants, descendantsAll_eq_flatMap]

theorem size_eq (n : Node) : n.size = 1 + (n.children.map size).sum := by
  obtain ⟨id, kind, span, children⟩ := n
  rw [size, sizeAll_eq_sum]

theorem length_descendants (n : Node) : n.descendants.length = n.size := by
  induction n using Node.rec (motive_2 := fun ns => (descendantsAll ns).length = sizeAll ns) with
  | mk id kind span children ih => rw [descendants, size, List.length_cons, ih, Nat.add_comm]
  | nil => rfl
  | cons n ns ihn ihs => rw [descendantsAll, sizeAll, List.length_append, ihn, ihs]

theorem length_ids (n : Node) : (n.descendants.map Node.id).length = n.size := by
  rw [List.length_map, length_descendants]

mutual

/-- The skeleton of a node. -/
def skeleton : Node → Skeleton
  | ⟨_, kind, span, children⟩ =>
    if kind.isToken then .leaf kind span else .node kind (skeletonAll children)

/-- The skeletons of some nodes. -/
def skeletonAll : List Node → List Skeleton
  | [] => []
  | n :: ns => n.skeleton :: skeletonAll ns

end

theorem skeletonAll_eq_map (ns : List Node) : skeletonAll ns = ns.map skeleton := by
  induction ns with
  | nil => rfl
  | cons n ns ih => rw [skeletonAll, ih, List.map_cons]

theorem skeleton_of_isToken {n : Node} (h : n.kind.isToken = true) :
    n.skeleton = .leaf n.kind n.span := by
  obtain ⟨id, kind, span, children⟩ := n
  rw [skeleton, if_pos h]

theorem skeleton_of_isNode {n : Node} (h : n.kind.isNode = true) :
    n.skeleton = .node n.kind (n.children.map skeleton) := by
  obtain ⟨id, kind, span, children⟩ := n
  have : ¬ kind.isToken = true := by simpa [Kind.isToken] using h
  rw [skeleton, if_neg this, skeletonAll_eq_map]

/-- A token is not empty and has no children; a node of another kind has children, and it spans
exactly what they span. -/
inductive Fitted : Node → Prop where
  | token {id : Nat} {kind : Kind} {span : Span} (hk : kind.isToken = true)
      (hs : span.start < span.stop) : Fitted ⟨id, kind, span, []⟩
  | node {id : Nat} {kind : Kind} {span : Span} {children : List Node} (hk : kind.isNode = true)
      (hne : children ≠ []) (hs : Adjoin span.start span.stop (children.map Node.span))
      (hc : ∀ c ∈ children, Fitted c) : Fitted ⟨id, kind, span, children⟩

/-- Kind, span and number of children of a node and of all below it. -/
def shapes (n : Node) : List (Kind × Span × Nat) :=
  n.descendants.map fun m => (m.kind, m.span, m.children.length)

theorem shapes_eq (n : Node) :
    n.shapes = (n.kind, n.span, n.children.length) :: n.children.flatMap shapes := by
  rw [shapes, descendants_eq, List.map_cons, List.map_flatMap]
  rfl

theorem kind_skeleton (n : Node) : n.skeleton.kind = n.kind := by
  by_cases h : n.kind.isToken = true
  · rw [skeleton_of_isToken h]
    rfl
  · rw [skeleton_of_isNode (by simpa [Kind.isToken] using h)]
    rfl

/-- What holds of single nodes with equal skeletons holds of lists of them. -/
theorem map_eq_of_skeletons {α : Type} {f : Node → α} {ms ns : List Node}
    (h : ms.map skeleton = ns.map skeleton)
    (hf : ∀ m ∈ ms, ∀ n ∈ ns, m.skeleton = n.skeleton → f m = f n) : ms.map f = ns.map f := by
  induction ms generalizing ns with
  | nil =>
    cases ns with
    | nil => rfl
    | cons n ns => cases h
  | cons m ms ih =>
    cases ns with
    | nil => cases h
    | cons n ns =>
      obtain ⟨hm, hms⟩ := List.cons.inj h
      rw [List.map_cons, List.map_cons, hf m List.mem_cons_self n List.mem_cons_self hm,
        ih hms fun a ha b hb => hf a (List.mem_cons_of_mem _ ha) b (List.mem_cons_of_mem _ hb)]

theorem Fitted.span_le {n : Node} (h : n.Fitted) : n.span.start ≤ n.span.stop := by
  cases h with
  | token _ hs => exact Nat.le_of_lt hs
  | node _ _ hs _ => exact hs.le

theorem Fitted.children {n : Node} (h : n.Fitted) : ∀ c ∈ n.children, c.Fitted := by
  cases h with
  | token _ _ => exact List.forall_mem_nil _
  | node _ _ _ hc => exact hc

theorem Fitted.children_eq_nil {n : Node} (h : n.Fitted) (hk : n.kind.isToken = true) :
    n.children = [] := by
  cases h with
  | token _ _ => rfl
  | node hn _ _ _ =>
    rw [Kind.isToken, hn] at hk
    cases hk

theorem Fitted.children_ne {n : Node} (h : n.Fitted) (hk : n.kind.isToken = false) :
    n.children ≠ [] := by
  cases h with
  | token hk' _ =>
    rw [hk'] at hk
    cases hk
  | node _ hne _ _ => exact hne

theorem leaves_eq (n : Node) :
    n.leaves = if n.kind.isToken then n :: n.children.flatMap leaves
      else n.children.flatMap leaves := by
  rw [leaves, descendants_eq, List.filter_cons, List.filter_flatMap]
  rfl

theorem Fitted.leaves_ne {n : Node} (h : n.Fitted) : n.leaves ≠ [] := by
  induction h with
  | token hk _ =>
    rw [leaves_eq, if_pos hk]
    exact List.cons_ne_nil _ _
  | @node id kind span children hk hne _ _ ih =>
    obtain ⟨c, cs, rfl⟩ := List.exists_cons_of_ne_nil hne
    have htoken : ¬ kind.isToken = true := by simp [Kind.isToken, hk]
    rw [leaves_eq, if_neg htoken, List.flatMap_cons]
    exact fun hnil => ih c List.mem_cons_self (List.append_eq_nil_iff.1 hnil).1

/-- The leaves of a fitted node are the tokens of its skeleton. -/
theorem Fitted.leavesOf_eq {n : Node} (h : n.Fitted) :
    leavesOf n.skeleton.events = n.leaves.map fun m => (m.kind, m.span) := by
  induction h with
  | token hk _ =>
    rw [skeleton_of_isToken hk, leaves_eq, if_pos hk]
    rfl
  | @node id kind span children hk _ _ _ ih =>
    have hk' : ¬ kind.isToken = true := by simp [Kind.isToken, hk]
    rw [skeleton_of_isNode hk, Skeleton.events, leavesOf_enclosed, Skeleton.eventsAll_eq_flatMap,
      leaves_eq, if_neg hk', leavesOf, List.filterMap_flatMap, List.map_flatMap, List.flatMap_map]
    rw [List.flatMap_def, List.flatMap_def]
    exact congrArg List.flatten (List.map_congr_left ih)

/-- The spans of the leaves of a fitted node adjoin. -/
theorem Fitted.adjoin_leaves {n : Node} (h : n.Fitted) :
    Adjoin n.span.start n.span.stop (n.leaves.map Node.span) := by
  induction h with
  | token hk hs =>
    rw [leaves_eq, if_pos hk]
    exact ⟨rfl, Nat.le_of_lt hs, rfl⟩
  | @node id kind span children hk _ hs _ ih =>
    have hk' : ¬ kind.isToken = true := by simp [Kind.isToken, hk]
    rw [leaves_eq, if_neg hk', List.map_flatMap]
    exact hs.flatMap ih

/-- Fitted nodes with one skeleton have equal spans. -/
theorem Fitted.span_eq {m : Node} (hm : m.Fitted) :
    ∀ {n : Node}, n.Fitted → m.skeleton = n.skeleton → m.span = n.span := by
  induction hm with
  | @token id kind span hk _ =>
    intro n _ h
    have hn : n.kind.isToken = true := by
      rw [← kind_skeleton n, ← h, kind_skeleton]
      exact hk
    rw [skeleton_of_isToken hk, skeleton_of_isToken hn] at h
    exact (Skeleton.leaf.inj h).2
  | @node id kind span children hk hne hs _ ih =>
    intro n hn h
    have hkind : n.kind = kind := by rw [← kind_skeleton n, ← h, kind_skeleton]
    cases hn with
    | token hk' _ =>
      simp only at hkind
      rw [hkind, Kind.isToken, hk] at hk'
      cases hk'
    | @node id' kind' span' children' hk' _ hs' hc' =>
      rw [skeleton_of_isNode hk, skeleton_of_isNode hk'] at h
      have hspans : children.map Node.span = children'.map Node.span :=
        map_eq_of_skeletons (Skeleton.node.inj h).2 fun c hc d hd => ih c hc (hc' d hd)
      obtain ⟨h₁, h₂⟩ := hs.unique (by simpa using hne) (hspans ▸ hs')
      cases span
      cases span'
      simp_all

/-- **Fitted nodes with one skeleton have the same shapes throughout.** -/
theorem Fitted.shapes_eq {m : Node} (hm : m.Fitted) :
    ∀ {n : Node}, n.Fitted → m.skeleton = n.skeleton → m.shapes = n.shapes := by
  induction hm with
  | @token id kind span hk hs =>
    intro n hn h
    have hspan := (@Fitted.token id _ _ hk hs).span_eq hn h
    have hkind : n.kind = kind := by rw [← kind_skeleton n, ← h, kind_skeleton]
    cases hn with
    | token _ _ =>
      simp only at hkind hspan
      rw [hkind, hspan]
      rfl
    | node hk' _ _ _ =>
      simp only at hkind
      rw [hkind] at hk'
      rw [Kind.isToken, hk'] at hk
      cases hk
  | @node id kind span children hk hne hs hc ih =>
    intro n hn h
    have hspan := (@Fitted.node id _ _ _ hk hne hs hc).span_eq hn h
    have hkind : n.kind = kind := by rw [← kind_skeleton n, ← h, kind_skeleton]
    have hchildren : children.map skeleton = n.children.map skeleton := by
      rw [skeleton_of_isNode hk, skeleton_of_isNode (hkind ▸ hk)] at h
      exact (Skeleton.node.inj h).2
    have hshapes : children.map shapes = n.children.map shapes :=
      map_eq_of_skeletons hchildren fun c hc d hd => ih c hc (hn.children d hd)
    have hlength := congrArg List.length hchildren
    rw [List.length_map, List.length_map] at hlength
    rw [Node.shapes_eq, Node.shapes_eq n, List.flatMap_def, List.flatMap_def, hshapes, hkind,
      ← hspan, hlength]

end Node

end LpFormat
