import LpFormat.Proofs.Parse.Faults
import LpFormat.Proofs.Parsing.Complete

/-!
# The parser accepts exactly its grammar

* `Input.Proper.plain_bare`: an input without its trivia;
* **`parse_accepts_iff`**: nothing is wrong with a text if and only if its comments are closed and
  its significant tokens are a word of the grammar.
-/

namespace LpFormat

theorem Input.Proper.plain_bare {i : Input} (hi : i.Proper) : i.bare.Plain :=
  ⟨hi.bare, fun _ ht => by simpa using (List.mem_filter.1 ht).2⟩

/-- Nothing is syntactically wrong with an input if and only if it is a word of the grammar. -/
theorem Rule.document_clean_iff {i : Input} (hi : i.Proper) :
    (document i).output.diagnostics.filter Diagnostic.isSyntactic = [] ↔
      significant i.tokens ∈ Production.document := by
  refine ⟨?_, fun h => ?_⟩
  · obtain ⟨f, _, hclean, _⟩ := document_reading hi
    exact hclean
  · have hbare := document_accepts hi.plain_bare h
    rw [document_bare hi] at hbare
    exact hbare

theorem filterMap_comments_eq_nil {ts : List Token} : ts.filterMap Rule.commentDiagnostic? = [] ↔
    ∀ t ∈ ts, t.kind = .blockComment → isClosedComment t.text = true := by
  rw [List.filterMap_eq_nil_iff]
  refine forall₂_congr fun t _ => ?_
  rw [Rule.commentDiagnostic?]
  by_cases h : t.kind = .blockComment ∧ ¬ isClosedComment t.text = true
  · rw [if_pos h]
    exact ⟨fun h' => absurd h' (Option.some_ne_none _), fun h' => absurd (h' h.1) h.2⟩
  · rw [if_neg h]
    exact ⟨fun _ hk => by_contra fun hc => h ⟨hk, hc⟩, fun _ => rfl⟩

/-- A diagnostic is about a comment or about something else. -/
theorem eq_nil_iff_filters {ds : List Diagnostic} : ds = [] ↔
    ds.filter Trace.ofComment = [] ∧ ds.filter Diagnostic.isSyntactic = [] := by
  refine ⟨fun h => by rw [h]; exact ⟨rfl, rfl⟩, fun ⟨hc, hs⟩ => ?_⟩
  rw [List.filter_eq_nil_iff] at hc hs
  refine List.eq_nil_iff_forall_not_mem.2 fun d hd => ?_
  have hnot : Trace.ofComment d = true ∨ d.isSyntactic = true := by
    rw [Trace.ofComment, Diagnostic.isSyntactic]
    by_cases h : d.problem = .unclosedComment
    · exact .inl (beq_iff_eq.2 h)
    · exact .inr (bne_iff_ne.2 h)
  exact hnot.elim (hc d hd) (hs d hd)

/-- **The parser accepts exactly its grammar**: there are no diagnostics if and only if all block
comments of a text are closed and its significant tokens are a word of the grammar. -/
theorem parse_accepts_iff (text : Text) :
    (parse text {}).diagnostics = [] ↔
      (∀ t ∈ lex text, t.kind = .blockComment → isClosedComment t.text = true) ∧
        significantTokens text ∈ Production.document := by
  have hi := Input.proper_ofText text 0 0 .statementStart
  have hclean := Rule.document_clean_iff hi
  have hcomments := Rule.document_comments hi
  rw [Input.tokens_ofText_zero] at hclean hcomments
  have hdiag : (parse text {}).diagnostics =
      Diagnostic.sorted (Rule.document (.ofText text 0 0 .statementStart)).output.diagnostics := rfl
  have hperm := Diagnostic.sorted_perm
    (Rule.document (.ofText text 0 0 .statementStart)).output.diagnostics
  rw [hdiag, ← filterMap_comments_eq_nil, ← hcomments]
  refine ⟨fun h => ?_, fun ⟨hc, hs⟩ => ?_⟩
  · rw [h] at hperm
    obtain ⟨hc, hs⟩ := eq_nil_iff_filters.1 hperm.nil_eq.symm
    exact ⟨hc, hclean.1 hs⟩
  · rw [eq_nil_iff_filters.2 ⟨hc, hclean.2 hs⟩] at hperm ⊢
    exact hperm.eq_nil

end LpFormat
