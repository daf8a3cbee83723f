import LpFormat.Proofs.Parsing.Bare

/-!
# Trees without trivia

* `Skeleton.prune`, `Skeleton.pruneAll`: a forest without the leaves of trivia, and
  `Skeleton.eventsAll_prune`: its events;
* `Skeleton.moveAll`: a forest with its spans moved;
* `Gist`, `Tree.gist`: what a tree says, without trivia and without places;
* `Node.gist_eq`, `Skeleton.gistAll_move`: the gist depends on the pruned forest and the texts of its
  leaves, wherever these stand.
-/

namespace LpFormat

namespace Skeleton

mutual

/-- A skeleton without leaves for trivia; such a leaf itself leaves nothing. -/
def prune : Skeleton → List Skeleton
  | leaf kind span => if kind.isTrivia then [] else [leaf kind span]
  | node kind children => [node kind (pruneAll children)]

/-- A forest without leaves for trivia. -/
def pruneAll : List Skeleton → List Skeleton
  | [] => []
  | s :: ss => s.prune ++ pruneAll ss

end

mutual

/-- A skeleton with its spans moved. -/
def move (f : Nat → Nat) : Skeleton → Skeleton
  | leaf kind span => leaf kind (span.map f)
  | node kind children => node kind (moveAll f children)

/-- A forest with its spans moved. -/
def moveAll (f : Nat → Nat) : List Skeleton → List Skeleton
  | [] => []
  | s :: ss => s.move f :: moveAll f ss

end

mutual

theorem events_prune (s : Skeleton) :
    eventsAll s.prune = s.events.filter Event.isSignificant := by
  cases s with
  | leaf kind span =>
    by_cases h : kind.isTrivia = true
    · simp [prune, events, eventsAll, Event.isSignificant, h]
    · simp [prune, events, eventsAll, Event.isSignificant, h]
  | node kind children =>
    rw [prune, eventsAll_singleton, events, events, eventsAll_prune children, List.filter_cons,
      List.filter_append]
    rfl

theorem eventsAll_prune (ss : List Skeleton) :
    eventsAll (pruneAll ss) = (eventsAll ss).filter Event.isSignificant := by
  cases ss with
  | nil => rfl
  | cons s ss =>
    rw [pruneAll, eventsAll_append, events_prune s, eventsAll_prune ss, eventsAll,
      List.filter_append]

end

mutual

theorem events_move (f : Nat → Nat) (s : Skeleton) :
    (s.move f).events = s.events.map (Event.move f) := by
  cases s with
  | leaf kind span => rfl
  | node kind children =>
    rw [move, events, events, eventsAll_move f children, List.map_cons, List.map_append]
    rfl

theorem eventsAll_move (f : Nat → Nat) (ss : List Skeleton) :
    eventsAll (moveAll f ss) = (eventsAll ss).map (Event.move f) := by
  cases ss with
  | nil => rfl
  | cons s ss => rw [moveAll, eventsAll, eventsAll, events_move f s, eventsAll_move f ss,
      List.map_append]

end

end Skeleton

/-! ## The gist of a tree -/

/-- What a tree says: its kinds and the texts of its leaves. -/
inductive Gist where
  | leaf (kind : Kind) (text : Text)
  | node (kind : Kind) (children : List Gist)

namespace Node

mutual

/-- What a node says without its trivia; a leaf for trivia says nothing. -/
def gist (textOf : Span → Text) : Node → List Gist
  | ⟨_, kind, span, children⟩ =>
    if kind.isTrivia then []
    else if kind.isToken then [.leaf kind (textOf span)]
    else [.node kind (gistAll textOf children)]

/-- What some nodes say without their trivia. -/
def gistAll (textOf : Span → Text) : List Node → List Gist
  | [] => []
  | n :: ns => n.gist textOf ++ gistAll textOf ns

end

end Node

/-- What a tree says without its trivia. -/
def Tree.gist (t : Tree) : List Gist := t.root.gist t.text.slice

namespace Skeleton

mutual

/-- What a skeleton says. -/
def gist (textOf : Span → Text) : Skeleton → Gist
  | leaf kind span => .leaf kind (textOf span)
  | node kind children => .node kind (gistAll textOf children)

/-- What a forest says. -/
def gistAll (textOf : Span → Text) : List Skeleton → List Gist
  | [] => []
  | s :: ss => s.gist textOf :: gistAll textOf ss

end

theorem gistAll_append (textOf : Span → Text) (ss ts : List Skeleton) :
    gistAll textOf (ss ++ ts) = gistAll textOf ss ++ gistAll textOf ts := by
  induction ss with
  | nil => rfl
  | cons s ss ih =>
    rw [List.cons_append, gistAll, gistAll, ih]
    rfl

mutual

/-- A moved forest says the same where the texts have moved too. -/
theorem gist_move {textOf textOf' : Span → Text} {f : Nat → Nat} (s : Skeleton)
    (h : ∀ l ∈ leavesOf s.events, textOf (l.2.map f) = textOf' l.2) :
    (s.move f).gist textOf = s.gist textOf' := by
  cases s with
  | leaf kind span =>
    rw [move, gist, gist, h (kind, span) (by simp [events, leavesOf, Event.leaf?])]
  | node kind children =>
    rw [events, leavesOf_enclosed] at h
    rw [move, gist, gist, gistAll_move children h]

theorem gistAll_move {textOf textOf' : Span → Text} {f : Nat → Nat} (ss : List Skeleton)
    (h : ∀ l ∈ leavesOf (eventsAll ss), textOf (l.2.map f) = textOf' l.2) :
    gistAll textOf (moveAll f ss) = gistAll textOf' ss := by
  cases ss with
  | nil => rfl
  | cons s ss =>
    rw [eventsAll, leavesOf_append] at h
    obtain ⟨h₁, h₂⟩ := List.forall_mem_append.1 h
    rw [moveAll, gistAll, gistAll, gist_move s h₁, gistAll_move ss h₂]

end

end Skeleton

namespace Node

mutual

/-- A node says what its pruned skeleton says. -/
theorem gist_eq (textOf : Span → Text) (n : Node) :
    n.gist textOf = Skeleton.gistAll textOf n.skeleton.prune := by
  obtain ⟨id, kind, span, children⟩ := n
  rw [gist, skeleton]
  by_cases hv : kind.isTrivia = true
  · rw [if_pos hv, if_pos (Kind.isToken_of_isTrivia hv), Skeleton.prune, if_pos hv]
    rfl
  · rw [if_neg hv]
    by_cases ht : kind.isToken = true
    · rw [if_pos ht, if_pos ht, Skeleton.prune, if_neg hv]
      rfl
    · rw [if_neg ht, if_neg ht, Skeleton.prune, gistAll_eq textOf children]
      rfl

theorem gistAll_eq (textOf : Span → Text) (ns : List Node) :
    gistAll textOf ns = Skeleton.gistAll textOf (Skeleton.pruneAll (skeletonAll ns)) := by
  cases ns with
  | nil => rfl
  | cons n ns =>
    rw [gistAll, gist_eq textOf n, gistAll_eq textOf ns, skeletonAll, Skeleton.pruneAll,
      Skeleton.gistAll_append]

end

end Node

end LpFormat
