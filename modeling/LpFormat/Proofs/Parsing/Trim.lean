import LpFormat.Proofs.Parsing.Trace

/-!
# Nodes without trivia at their ends

Trivia go to the node that is open when the token behind them is taken, and a node opens only after
the trivia in front of its first token.

* `Skeleton.Trimmed`: nodes, at any depth, begin and end with significant tokens;
* **`Trace.trimmed`**: whatever a rule leaves is trimmed.
-/

namespace LpFormat

/-- Each node of a tree begins and ends with a significant token. -/
inductive Skeleton.Trimmed : Skeleton → Prop
  | leaf (kind : Kind) (span : Span) : Trimmed (.leaf kind span)
  | node {kind : Kind} {f : List Skeleton}
      (first : ∀ l ∈ (leavesOf (eventsAll f)).head?, l.1.isTrivia = false)
      (last : ∀ l ∈ (leavesOf (eventsAll f)).getLast?, l.1.isTrivia = false)
      (below : ∀ s ∈ f, Trimmed s) : Trimmed (.node kind f)

theorem Skeleton.trimmed_trivia (v : List Token) : ∀ s ∈ trivia v, s.Trimmed := by
  intro s hs
  obtain ⟨t, -, rfl⟩ := List.mem_map.1 hs
  exact .leaf _ _

/-- Trivia are shown as they are, and nothing else is shown as trivia. -/
theorem Token.ShownAs.isTrivia_eq {t : Token} {kind : Kind} (h : t.ShownAs kind) :
    kind.isTrivia = t.kind.isTrivia := by
  cases h with
  | same => rfl
  | free hk _ => exact hk ▸ rfl
  | sosType hk _ => exact hk ▸ rfl

namespace Trace

variable {K : Kind → Prop} {n : Nat} {i j : Input} {xs : List Token} {f : List Skeleton}
  {ds : List Diagnostic}

/-- Leaves begin with a significant token if the tokens do. -/
theorem significant_head {ts : List Token} {ls : List (Kind × Span)}
    (h : List.Forall₂ Leaf ts ls) (hts : ∀ t ∈ ts.head?, t.kind.isTrivia = false) :
    ∀ l ∈ ls.head?, l.1.isTrivia = false := by
  cases h with
  | nil => rintro l ⟨⟩
  | cons hl _ =>
    rintro l ⟨⟩
    exact hl.shown.isTrivia_eq.trans (hts _ rfl)

/-- Leaves end with a significant token if the tokens do. -/
theorem significant_last {ts : List Token} {ls : List (Kind × Span)}
    (h : List.Forall₂ Leaf ts ls) (hts : ∀ t ∈ ts.getLast?, t.kind.isTrivia = false) :
    ∀ l ∈ ls.getLast?, l.1.isTrivia = false := by
  rw [← List.head?_reverse] at hts ⊢
  exact significant_head (List.forall₂_reverse_iff.2 h) hts

/-- **No node that a rule leaves begins or ends with trivia.** -/
theorem trimmed (h : Trace K n i xs f ds j) : ∀ s ∈ f, s.Trimmed := by
  induction h with
  | nil i => exact List.forall_mem_nil _
  | append _ _ ih ih' => exact List.forall_mem_append.2 ⟨ih, ih'⟩
  | token _ _ _ =>
    refine List.forall_mem_append.2 ⟨Skeleton.trimmed_trivia _, ?_⟩
    rw [List.forall_mem_singleton]
    exact .leaf _ _
  | @node i j v us xs f ds kind _ _ hus _ _ h hxs ih =>
    refine List.forall_mem_append.2 ⟨Skeleton.trimmed_trivia _, ?_⟩
    rw [List.forall_mem_singleton]
    refine .node (significant_head h.shown fun t ht => hus t ?_)
      (significant_last h.shown fun t ht => ?_) ih
    · -- the body takes tokens from the first one on
      have hsplit : us = xs ++ j.tokens := h.tokens_eq
      rw [hsplit, List.head?_append_of_ne_nil _ hxs]
      exact ht
    · rcases h.ends with ⟨hnil, -⟩ | ⟨ys, u, rfl, hu, -⟩
      · exact absurd hnil hxs
      · rw [List.getLast?_concat] at ht
        exact Option.some.inj ht ▸ hu
  | missing e h => exact List.forall_mem_nil _
  | report _ _ _ _ ih => exact ih

end Trace

end LpFormat
