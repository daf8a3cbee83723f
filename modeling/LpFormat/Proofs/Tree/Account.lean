import LpFormat.Proofs.Tree.Build
import LpFormat.Proofs.Tree.Walk

/-!
# Events and walks

Events that describe one node begin with it, keep it open until the last of them, and then have
finished all that they began. They are the events of a skeleton, so that a walk through the node they
give meets just what they said.

* `Event.weight`, `height`: how many nodes are open after some events;
  **`exists_forest`**: events that finish all they begin are those of a forest;
* `Account`: the events of one node, **`Account.exists_skeleton`**; `Skeleton.account_node`,
  `Rule.account_document`: nodes that are described so;
* `Visit.event?`, `Skeleton.events_of_traverse`: the events that a walk meets;
* `Node.Recounts`: a node whose walk gives events back, **`Skeleton.recounts_toNode`**.
-/

namespace LpFormat

/-! ## Nodes that are open -/

/-- How many more nodes are open after an event. -/
def Event.weight : Event → Int
  | start _ => 1
  | token _ _ => 0
  | finish => -1

/-- How many nodes are open after some events. -/
def height (es : List Event) : Int := (es.map Event.weight).sum

theorem height_nil : height [] = 0 := rfl

theorem height_cons (e : Event) (es : List Event) : height (e :: es) = e.weight + height es := rfl

theorem height_append (es fs : List Event) : height (es ++ fs) = height es + height fs := by
  rw [height, List.map_append, List.sum_append]
  rfl

mutual

theorem Skeleton.height_events (s : Skeleton) : height s.events = 0 := by
  match s with
  | .leaf kind span => rfl
  | .node kind children =>
    rw [Skeleton.events, height_cons, height_append, Skeleton.height_eventsAll]
    rfl

theorem Skeleton.height_eventsAll (ss : List Skeleton) : height (Skeleton.eventsAll ss) = 0 := by
  match ss with
  | [] => rfl
  | s :: ss =>
    rw [Skeleton.eventsAll, height_append, Skeleton.height_events, Skeleton.height_eventsAll]
    rfl

end

/-- Events that finish whatever they begin are a forest, and behind it one more for every node that
they finish without having begun it. -/
theorem exists_forests {es : List Event} (h : ∀ n, height (es.drop n) ≤ 0) :
    ∃ (f : List Skeleton) (fs : List (List Skeleton)),
      es = Skeleton.eventsAll f ++ fs.flatMap (fun g => .finish :: Skeleton.eventsAll g) ∧
        height es = -(fs.length : Int) := by
  induction es with
  | nil => exact ⟨[], [], rfl, rfl⟩
  | cons e es ih =>
    obtain ⟨f, fs, rfl, hheight⟩ := ih fun n => h (n + 1)
    have hle := h 0
    rw [List.drop_zero, height_cons, hheight] at hle
    rw [height_cons, hheight]
    cases e with
    | token kind span => exact ⟨.leaf kind span :: f, fs, rfl, by simp [Event.weight]⟩
    | finish =>
      refine ⟨[], f :: fs, rfl, ?_⟩
      rw [List.length_cons]
      simp only [Event.weight]
      omega
    | start kind =>
      -- the node that begins here is the first of those that are finished behind
      cases fs with
      | nil => simp [Event.weight] at hle
      | cons g fs =>
        refine ⟨.node kind f :: g, fs, ?_, ?_⟩
        · rw [Skeleton.eventsAll, Skeleton.events, List.flatMap_cons]
          simp only [List.cons_append, List.append_assoc, List.nil_append]
        · rw [List.length_cons]
          simp only [Event.weight]
          omega

/-- **Events that finish all they begin are those of a forest.** -/
theorem exists_forest {es : List Event} (hes : height es = 0) (h : ∀ n, 0 ≤ height (es.take n)) :
    ∃ f, es = Skeleton.eventsAll f := by
  obtain ⟨f, fs, hf, hfs⟩ := @exists_forests es fun n => by
    have hsum := height_append (es.take n) (es.drop n)
    rw [List.take_append_drop, hes] at hsum
    have := h n
    omega
  obtain rfl : fs = [] := List.eq_nil_of_length_eq_zero (by omega)
  exact ⟨f, by rw [hf, List.flatMap_nil, List.append_nil]⟩

/-- The events of one node: it is open until the last of them, and then nothing is. Tokens have the
kinds of tokens and nodes those of nodes, and no token starts before the one before it ends. -/
structure Account (es : List Event) : Prop where
  begins : ∃ kind, es.head? = some (.start kind)
  inside : ∀ n < es.length, 0 < n → 0 < height (es.take n)
  ends : height es = 0
  kinds : ∀ e ∈ es, e.wellKinded = true
  spans : ∀ s ∈ leafSpans es, s.start ≤ s.stop
  order : (leafSpans es).Pairwise fun s t => s.stop ≤ t.start

open Skeleton in
/-- **The events of one node are those of a skeleton.** -/
theorem Account.exists_skeleton {es : List Event} (h : Account es) :
    ∃ kind children, es = (Skeleton.node kind children).events := by
  obtain ⟨f, rfl⟩ := exists_forest h.ends fun n => by
    rcases Nat.eq_zero_or_pos n with rfl | hpos
    · exact Int.le_refl 0
    rcases Nat.lt_or_ge n es.length with hlt | hge
    · exact Int.le_of_lt (h.inside n hlt hpos)
    · rw [List.take_of_length_le hge, h.ends]
  obtain ⟨kind, hkind⟩ := h.begins
  cases f with
  | nil => cases hkind
  | cons s f =>
    cases s with
    | leaf _ _ => cases hkind
    | node kind children =>
      -- nothing is open behind the first node, so it is the last
      refine ⟨kind, children, ?_⟩
      by_contra hne
      have hrest : eventsAll f ≠ [] := fun hnil => hne (by rw [eventsAll, hnil, List.append_nil])
      have hshort : (node kind children).events.length <
          (eventsAll (node kind children :: f)).length := by
        rw [eventsAll, List.length_append]
        exact Nat.lt_add_of_pos_right (List.length_pos_of_ne_nil hrest)
      have hinside := h.inside _ hshort (List.length_pos_of_ne_nil (List.cons_ne_nil _ _))
      rw [eventsAll, List.take_left, height_events] at hinside
      exact Int.lt_irrefl 0 hinside

namespace Skeleton

/-- Up to the last of its events, a node is open. -/
theorem height_take_node {kind : Kind} {children : List Skeleton}
    (h : ∀ n, 0 ≤ height ((eventsAll children).take n)) (n : Nat) :
    (n < (node kind children).events.length → 0 < n → 0 < height ((node kind children).events.take n)) ∧
      0 ≤ height ((node kind children).events.take n) := by
  rw [events, List.length_cons, List.length_append, List.length_singleton]
  cases n with
  | zero => exact ⟨fun _ h => absurd h (Nat.lt_irrefl 0), Int.le_refl 0⟩
  | succ n =>
    have hn := h n
    rw [List.take_succ_cons, List.take_append, height_cons, height_append]
    rcases Nat.lt_or_ge (eventsAll children).length n with hlt | hge
    · have hlast : height (([.finish] : List Event).take (n - (eventsAll children).length)) = -1 := by
        rw [List.take_of_length_le (by simp only [List.length_singleton]; omega)]
        rfl
      rw [hlast]
      simp only [Event.weight]
      omega
    · rw [Nat.sub_eq_zero_of_le hge, List.take_zero, height_nil]
      simp only [Event.weight]
      omega

mutual

theorem height_take_events (s : Skeleton) (n : Nat) : 0 ≤ height (s.events.take n) := by
  match s with
  | leaf kind span => cases n <;> simp [events, height, Event.weight]
  | node kind children => exact (height_take_node (height_take_eventsAll children) n).2

theorem height_take_eventsAll (ss : List Skeleton) (n : Nat) : 0 ≤ height ((eventsAll ss).take n) := by
  match ss with
  | [] => rw [eventsAll, List.take_nil, height_nil]
  | s :: ss =>
    rw [eventsAll, List.take_append, height_append]
    exact Int.add_nonneg (height_take_events s n) (height_take_eventsAll ss _)

end

/-- The events of a skeleton whose tokens adjoin are those of one node. -/
theorem account_node {kind : Kind} {children : List Skeleton} (hk : kind.isNode = true)
    (hc : ∀ c ∈ children, c.Proper) {a z : Nat} (h : Adjoin a z (leafSpans (eventsAll children))) :
    Account (node kind children).events := by
  have hspans : leafSpans (node kind children).events = leafSpans (eventsAll children) :=
    leafSpans_enclosed _ _
  refine ⟨⟨kind, rfl⟩, fun n => (height_take_node (height_take_eventsAll children) n).1,
    height_events _, ?_, ?_, ?_⟩
  · rw [events, List.forall_mem_cons, List.forall_mem_append, List.forall_mem_singleton]
    exact ⟨hk, wellKinded_of_proper hc, rfl⟩
  · rw [hspans]
    exact fun s hs => (h.mem hs).2.1
  · rw [hspans]
    exact h.pairwise

end Skeleton

/-- The rule for documents describes one node. -/
theorem Rule.account_document (text : Text) : Account (Rule.document (.start text)).output.events := by
  obtain ⟨f, he, hproper, hleaf⟩ := Rule.document_forest text
  rw [he]
  refine Skeleton.account_node rfl hproper (a := 0) (z := text.byteSize) ?_
  rw [leafSpans_of_forall₂ hleaf]
  exact adjoin_lex text

/-! ## What a walk meets -/

/-- The event that a step of a walk stands for. A token is met when it is entered. -/
def Visit.event? : Visit → Option Event
  | enter c => some (if c.focus.kind.isToken then .token c.focus.kind c.focus.span
      else .start c.focus.kind)
  | leave c => if c.focus.kind.isToken then none else some .finish

namespace Skeleton

mutual

/-- The traversal of the node of a skeleton meets the events of the skeleton. -/
theorem events_of_traverse (path : List Crumb) (id position : Nat) {s : Skeleton}
    (h : ∀ e ∈ s.events, e.wellKinded = true) :
    (Cursor.traverseFrom (fun _ => false) path (s.toNode id position)).filterMap Visit.event? =
      s.events := by
  match s with
  | leaf kind span =>
    have hk : kind.isToken = true := h _ List.mem_cons_self
    rw [toNode, Cursor.traverseFrom]
    simp [Visit.event?, hk, Cursor.traverseFromAll, events]
  | node kind children =>
    obtain ⟨hk, hc⟩ := wellKinded_children h
    have hk' : kind.isToken = false := by simp [Kind.isToken, hk]
    rw [toNode, Cursor.traverseFrom]
    simp [Visit.event?, hk', events, events_of_traverseAll _ _ _ _ _ _ _ hc]

theorem events_of_traverseAll (pid : Nat) (kind : Kind) (span : Span) (path : List Crumb)
    (before : List Node) (id position : Nat) {ss : List Skeleton}
    (h : ∀ e ∈ eventsAll ss, e.wellKinded = true) :
    (Cursor.traverseFromAll (fun _ => false) pid kind span path before
      (toNodes id position ss)).filterMap Visit.event? = eventsAll ss := by
  match ss with
  | [] => rfl
  | s :: ss =>
    rw [eventsAll, List.forall_mem_append] at h
    rw [toNodes, Cursor.traverseFromAll, List.filterMap_append, events_of_traverse _ _ _ h.1,
      events_of_traverseAll _ _ _ _ _ _ _ h.2, eventsAll]

end

end Skeleton

/-- A node that stands for some events: a walk through it gives them back, wherever it is placed, the
ids along the walk count up from a number, and nodes span from their first child to their last. -/
structure Node.Recounts (n : Node) (first : Nat) (es : List Event) : Prop where
  walk : ∀ path, ((Walk.ofCursor ⟨n, path⟩).run fun _ => false).filterMap Visit.event? = es
  ids : ∀ path, (((Walk.ofCursor ⟨n, path⟩).run fun _ => false).filterMap Visit.entered?).map
    (fun c => c.focus.id) = List.range' first (begun es)
  spans : ∀ m ∈ n.descendants, ∀ a z, m.children.head? = some a → m.children.getLast? = some z →
    m.span = ⟨a.span.start, z.span.stop⟩

/-- **The node of a skeleton stands for its events.** -/
theorem Skeleton.recounts_toNode (id position : Nat) {s : Skeleton}
    (h : ∀ e ∈ s.events, e.wellKinded = true) : (s.toNode id position).Recounts id s.events := by
  have hids : ((s.toNode id position).descendants.map Node.id).Nodup := by
    rw [ids_toNode]
    exact List.nodup_range'
  have hrun : ∀ path, ((Walk.ofCursor ⟨s.toNode id position, path⟩).run fun _ => false) =
      Cursor.traverseFrom (fun _ => false) path (s.toNode id position) := by
    intro path
    rw [← Walk.skipsAfter_none]
    exact Walk.run_ofCursor (fun _ => false) hids
  refine ⟨fun path => ?_, fun path => ?_, fun m hm a z ha hz => ?_⟩
  · rw [hrun, events_of_traverse path id position h]
  · rw [hrun, Cursor.entered_traverseFrom, ← ids_toNode id position,
      ← Cursor.map_focus_descendantsFrom path, List.map_map]
    rfl
  · have hne : m.children ≠ [] := by
      rintro hnil
      rw [hnil] at ha
      cases ha
    rw [span_of_mem_toNode hm hne 0, Node.hull, ha, hz]

end LpFormat
