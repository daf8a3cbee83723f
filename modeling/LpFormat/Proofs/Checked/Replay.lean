import LpFormat.Proofs.Checked.Arena
import LpFormat.Proofs.Tree.Account

/-!
# Replaying events into an arena

The events of one node are replayed into an arena that may hold other trees. Whatever it holds stays
as it is, and behind it stands a node whose walk gives the events back.

* `Assembly.Replays`: an arena behind such a replay, `Account.exists_replays`;
* **`replay_recounts`**: a new tree, and a node behind what an arena holds.
-/

namespace LpFormat

/-- Replaying events into an arena, without fault, puts a node behind what was there; it is read from
there, and it is the one that the events give. -/
structure Assembly.Replays (es : List Event) (old : Arena) (above : Option (Nat × Nat)) (position : Nat)
    (new : Arena) (n : Node) : Prop where
  build : build old above position es = .ok (new, [old.cells.length])
  grows : old.Grows new
  length : new.cells.length = old.cells.length + begun es
  load : new.load (begun es) (above.map Prod.fst) ((above.map Prod.snd).getD 0) old.cells.length = .ok n
  tree : Node.ofEvents old.cells.length position es = ([n], old.cells.length + begun es)
  recounts : n.Recounts old.cells.length es

namespace Skeleton

variable {s : Skeleton} {position : Nat}

theorem ofEvents_events (id position : Nat) (s : Skeleton) :
    Node.ofEvents id position s.events = ([s.toNode id position], id + begun s.events) := by
  rw [← eventsAll_singleton, Node.ofEvents_eq]
  rfl

/-- Nodes do not go back if no token does and all of them are behind the position, or if the position
does not matter. -/
theorem forward_of_account (h : Account s.events)
    (hposition : leads s.events = true ∨ ∀ t ∈ leafSpans s.events, position ≤ t.start) (id : Nat) :
    (s.toNode id position).Forward := by
  rcases hposition with hleads | hstart
  · rw [toNode_of_leads hleads id position 0]
    exact forward_toNode id (.of_pairwise (fun t _ => Nat.zero_le t.start) h.spans h.order)
  · exact forward_toNode id (.of_pairwise hstart h.spans h.order)

theorem replays (h : Account s.events)
    (hposition : leads s.events = true ∨ ∀ t ∈ leafSpans s.events, position ≤ t.start) (old : Arena)
    (above : Option (Nat × Nat)) :
    ∃ new, Assembly.Replays s.events old above position new (s.toNode old.cells.length position) := by
  have hforward := forward_of_account h hposition old.cells.length
  have hbuild := @Assembly.build_forest old above position [s]
  simp only [toNodes, List.flatMap_singleton, eventsAll_singleton, List.map_singleton, id_toNode,
    List.forall_mem_singleton] at hbuild
  obtain ⟨new, hnew, hgrows, hlength, hhas⟩ := hbuild hforward
  refine ⟨new, hnew, hgrows, hlength, ?_, ofEvents_events _ _ s, recounts_toNode _ _ h.kinds⟩
  have hload := Arena.load_eq hhas (Nat.le_of_eq (size_toNode old.cells.length position s))
  rwa [id_toNode] at hload

end Skeleton

/-- **Replaying events and walking gives the events back.** The events of one node give a tree of its
own, with ids from 0. Replayed into an arena behind a position, they leave all that is there as it is
and put the same node behind it, with ids from the first that is free. Nodes that are finished before
there is a token sit at the position; if there are any, it must not lie behind a token. -/
theorem replay_recounts {es : List Event} (h : Account es) (text : Text) :
    (∃ arena, Assembly.Replays es ⟨[], []⟩ none 0 arena (Tree.ofEvents text es).root) ∧
      (Tree.ofEvents text es).text = text ∧ (Tree.ofEvents text es).allocated = begun es ∧
      (Tree.ofEvents text es).dead = 0 ∧
      ∀ (old : Arena) (parent index position : Nat),
        (leads es = true ∨ ∀ s ∈ leafSpans es, position ≤ s.start) →
        ∃ new n m, Assembly.Replays es old (some (parent, index)) position new n ∧
          Node.ofEvents 0 position es = ([m], begun es) ∧ n = m.raise old.cells.length ∧
          (leads es = true ∨ position = 0 → m = (Tree.ofEvents text es).root) := by
  obtain ⟨kind, children, rfl⟩ := h.exists_skeleton
  have htree : Tree.ofEvents text (Skeleton.node kind children).events =
      ⟨text, (Skeleton.node kind children).toNode 0 0, begun (Skeleton.node kind children).events, 0⟩ := by
    rw [Tree.ofEvents, Skeleton.ofEvents_events, Nat.zero_add]
    rfl
  rw [htree]
  refine ⟨Skeleton.replays h (.inr fun s _ => Nat.zero_le s.start) ⟨[], []⟩ none, rfl, rfl, rfl, ?_⟩
  intro old parent index position hposition
  obtain ⟨new, hnew⟩ := Skeleton.replays h hposition old (some (parent, index))
  refine ⟨new, _, (Skeleton.node kind children).toNode 0 position, hnew, ?_, ?_, ?_⟩
  · rw [Skeleton.ofEvents_events, Nat.zero_add]
  · rw [Skeleton.toNode_raise, Nat.add_zero]
  · rintro (hleads | rfl)
    · exact Skeleton.toNode_of_leads hleads 0 position 0
    · rfl

/-- An objective with an empty node in it, twice in one arena: the second has ids from 5. -/
theorem replay_recounts_twice : ∃ es one two n,
    es = [.start .objective, .start .expression, .token .ident ⟨0, 1⟩, .finish, .start .errorNode,
      .finish, .token .newline ⟨2, 3⟩, .finish] ∧
      Assembly.build ⟨[], []⟩ none 0 es = .ok (one, [0]) ∧
      Assembly.build one (some (0, 3)) 9 es = .ok (two, [5]) ∧ one.Grows two ∧
      two.load 5 (some 0) 3 5 = .ok n ∧ n = (Tree.ofEvents [] es).root.raise 5 ∧
      n.span = ⟨0, 3⟩ ∧ ((Walk.ofCursor ⟨n, []⟩).run fun _ => false).filterMap Visit.event? = es := by
  have haccount : Account [.start .objective, .start .expression, .token .ident ⟨0, 1⟩, .finish,
      .start .errorNode, .finish, .token .newline ⟨2, 3⟩, .finish] :=
    ⟨⟨_, rfl⟩, by decide, by decide, by decide, by decide, by decide⟩
  obtain ⟨⟨one, hone⟩, -, -, -, hmore⟩ := replay_recounts haccount []
  obtain ⟨two, n, m, htwo, -, hn, hm⟩ := hmore one 0 3 9 (.inl rfl)
  have hlength : one.cells.length = 5 := hone.length
  have hbuild := htwo.build
  have hload := htwo.load
  rw [hm (.inl rfl), hlength] at hn
  rw [hlength] at hbuild hload
  refine ⟨_, one, two, n, rfl, hone.build, hbuild, htwo.grows, hload, hn, ?_, htwo.recounts.walk []⟩
  rw [hn]
  decide

/-- Behind a token there is no place for a node that is finished before it. -/
example : Assembly.build ⟨[], []⟩ none 2
    [.start .expression, .start .term, .finish, .token .ident ⟨0, 1⟩, .finish] =
      .error (.disorder 2 1) := by
  decide

end LpFormat
