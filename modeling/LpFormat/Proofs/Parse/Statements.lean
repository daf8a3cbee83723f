import LpFormat.Proofs.Parse.Faults
import LpFormat.Proofs.Reparse.Statement

/-!
# Statements without faults

A statement is read by one run of a rule, and the diagnostics of that run are those in its range. If
there are none, the statement is a word of the grammar.

* `Node.Fitted.leavesOutside_eq`: the leaves of a node without error nodes;
* **`Parse.Faithful.statement_clean`**: what is known of a statement without diagnostics.
-/

namespace LpFormat

namespace Node

theorem Fitted.leaves_of_isToken {n : Node} (h : n.Fitted) (hk : n.kind.isToken = true) :
    n.leaves = [n] := by
  rw [leaves_eq, if_pos hk, h.children_eq_nil hk]
  rfl

theorem leaves_of_isNode {n : Node} (hk : n.kind.isNode = true) :
    n.leaves = n.children.flatMap leaves := by
  have htoken : ¬ n.kind.isToken = true := by simp [Kind.isToken, hk]
  rw [leaves_eq, if_neg htoken]

/-- Where there is no node of a kind, all leaves are outside of such nodes. -/
theorem Fitted.leavesOutside_eq {n : Node} {k : Kind} (h : n.Fitted)
    (hk : ∀ m ∈ n.descendants, m.kind ≠ k) : n.leavesOutside k = n.leaves := by
  have hself := hk n n.mem_descendants_self
  induction h with
  | @token id kind span htoken hs =>
    rw [leavesOutside, if_neg hself, if_pos htoken, Fitted.leaves_of_isToken (.token htoken hs) htoken]
  | @node id kind span children hnode hne hs hc ih =>
    rw [leavesOutside_of_isNode hnode hself, leaves_of_isNode hnode]
    refine List.flatMap_congr fun c hcm => ih c hcm (fun m hm => ?_) (hk c ?_)
    · exact hk m (mem_descendants_child (n := ⟨id, kind, span, children⟩) hcm hm)
    · exact mem_descendants_child (n := ⟨id, kind, span, children⟩) hcm c.mem_descendants_self

/-- A node whose skeleton shows no faults has none. -/
theorem Fitted.faultless {n : Node} (h : n.Fitted) (herrors : n.skeleton.errorStarts = [])
    (hnumbers : n.skeleton.looseNumbers = []) :
    ∀ m ∈ n.descendants, m.kind ≠ .errorNode ∧ m.kind ≠ .invalidNumber := by
  have hnone : ∀ m ∈ n.descendants, m.kind ≠ .errorNode := by
    have hmap := h.errorStarts_eq
    rw [herrors, List.map_nil, List.map_eq_nil_iff, List.filter_eq_nil_iff] at hmap
    exact fun m hm hk => hmap m hm (by simp [hk])
  have hloose := h.looseNumbers_eq
  rw [hnumbers, h.leavesOutside_eq hnone, List.map_eq_nil_iff, List.filter_eq_nil_iff] at hloose
  refine fun m hm => ⟨hnone m hm, fun hk => ?_⟩
  exact hloose m (List.mem_filter.2 ⟨hm, hk ▸ rfl⟩) (by simp [hk])

end Node

namespace Parse

/-- **A statement without diagnostics in its range has no faults, and its significant tokens are a
word of its rule.** -/
theorem Faithful.statement_clean {p : Parse} (hp : p.Faithful) (hcap : p.capReached = false)
    {c : Cursor} (hroot : c.root = p.tree.root) (hout : isOuterStatement c = true)
    {rule : StatementRule} (hrule : ruleAt? c = some rule) (hsos : rule ≠ .sos)
    (hclean : ∀ d ∈ p.diagnostics, c.focus.span.contains d.span = false) :
    (∀ m ∈ c.focus.descendants, m.kind ≠ .errorNode ∧ m.kind ≠ .invalidNumber) ∧
      ∃ ts, List.Forall₂ Node.Holds c.focus.leaves ts ∧
        significant ts ∈ Production.statement rule := by
  have hpath : c.path ≠ [] := by
    intro hnil
    rw [isOuterStatement, hnil] at hout
    simp at hout
  obtain ⟨f, he, hf⟩ := hp.tree
  have hplaced := Cursor.placed_of_root hf hroot hpath
  have hfitted := hplaced.fitted.1
  obtain ⟨A, M, B, r₁, r₂, m₁, m₂, hs⟩ := hplaced.exists_site (Rule.document_shown he)
  obtain ⟨j, pre, post, v, t, us, more, hR⟩ :=
    hplaced.exists_round hs he hout hrule fun h => absurd h hsos
  obtain rfl := hR.single hsos
  obtain ⟨zs, htrace, -, hzs⟩ := hR.trace hs (K := fun _ => True) (fun _ _ => trivial)
    fun _ => trivial
  obtain rfl : zs = [] := List.forall₂_nil_right_iff.1 hzs
  rw [List.append_nil] at htrace
  have hi : (Input.start p.text).Proper := Input.proper_ofText ..
  have hj : (j.advance (t :: us)).Proper := hR.proper.of_suffix rfl ⟨v, hR.next.tokens.symm⟩
  have hinside : ¬ Rule.At Grammar.statementEnd (j.advance (t :: us)) := by
    rw [Rule.At, show (j.advance (t :: us)).peek 0 = j.peek 0 from hR.next.peek_advance 0]
    exact hR.inside
  -- what the run reports is in the range of the statement, and nothing is
  have hnone : (Rule.statement rule (j.advance (t :: us))).output.diagnostics = [] := by
    refine List.eq_nil_iff_forall_not_mem.2 fun d hd => ?_
    have hmem : d ∈ (Rule.document (.start p.text)).output.diagnostics := by
      rw [hR.reaches.document_eq hi hR.proper hR.inside, hR.run]
      simp [Output.enclosed, hd]
    have hat := (htrace.located d hd).resolve_right fun hlt => Nat.lt_irrefl _ hlt.1
    obtain ⟨hstart, -, hstop⟩ := located_within hs.inside.adjoin hat
    rw [hs.start] at hstart
    rw [hs.stop] at hstop
    have hsorted := hp.diagnostics_eq_sorted hcap
    have hout := hclean d (hsorted ▸ (Diagnostic.sorted_perm _).mem_iff.2 hmem)
    rw [Cursor.contains_iff.2 ⟨hstart, hstop⟩] at hout
    cases hout
  obtain ⟨⟨g, xs, hreading, -, hword, -⟩, -⟩ := Rule.runs_statement rule _ hj hinside
  obtain rfl : g = [c.focus.skeleton] :=
    Skeleton.eventsAll_injective (hreading.events.symm.trans hR.forest)
  obtain rfl : xs = M :=
    List.append_cancel_right (hreading.tokens.symm.trans htrace.tokens_eq)
  rw [hnone] at hword
  refine ⟨hfitted.faultless ?_ ?_, xs, holds_leaves hs hfitted, hword rfl⟩
  · have herrors := hreading.errors
    rw [hnone, Skeleton.errorStartsAll, Skeleton.errorStartsAll, List.append_nil] at herrors
    exact herrors.symm
  · have hnumbers := hreading.numbers
    rw [hnone, Skeleton.looseNumbersAll, Skeleton.looseNumbersAll, List.append_nil] at hnumbers
    exact hnumbers.symm

end Parse

end LpFormat
