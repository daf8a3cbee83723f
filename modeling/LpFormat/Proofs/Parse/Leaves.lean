import LpFormat.Parse
import LpFormat.Proofs.Parsing.Document
import LpFormat.Proofs.Token.Reading

/-!
# The leaves of a tree are the tokens of its text

* `Reader.Reads.adjoin`, `Reader.Reads.slice_eq`: tokens adjoin, and their spans cut out their
  texts;
* `Input.proper_ofText`: rules start on a proper input;
* `Rule.document_forest`, `parse_built`: the forest of a document and the tree that is made of it;
* `Rule.document_located`: where the diagnostics of a document stand;
* **`leaves_parse`**: leaves and tokens correspond one to one.
-/

namespace LpFormat

theorem Text.byteSize_pos {t : Text} (h : t ≠ []) : 0 < t.byteSize :=
  Nat.pos_of_ne_zero fun h₀ => h (byteSize_eq_zero.1 h₀)

namespace Reader

theorem Yields.solid {r r' : Reader} {mode : Mode} {t : Token} (h : r.Yields mode t r') :
    t.span.start < t.span.stop := by
  have := Text.byteSize_pos h.text_ne
  rw [h.start, h.stop]
  omega

namespace Reads

variable {r r' : Reader} {mode mode' : Mode} {ts : List Token}

theorem solid (h : Reads r mode ts r' mode') : ∀ t ∈ ts, t.span.start < t.span.stop := by
  induction h with
  | nil r mode => exact List.forall_mem_nil _
  | cons hne _ ih => exact List.forall_mem_cons.2 ⟨(yields_next _ hne).solid, ih⟩

/-- Tokens adjoin. -/
theorem adjoin (h : Reads r mode ts r' mode') :
    Adjoin r.position.offset r'.position.offset (ts.map Token.span) := by
  induction h with
  | nil r mode => rfl
  | @cons r r' mode mode' ts hne _ ih =>
    have hy := yields_next mode hne
    exact ⟨hy.start, Nat.le_of_lt hy.solid, hy.offset ▸ ih⟩

/-- The span of a token cuts out its text. -/
theorem slice_eq (h : Reads r mode ts r' mode') :
    ∀ pre : Text, pre.byteSize = r.position.offset →
      ∀ t ∈ ts, (pre ++ r.rest).slice t.span = t.text := by
  induction h with
  | nil r mode => exact fun _ _ => List.forall_mem_nil _
  | @cons r r' mode mode' ts hne _ ih =>
    intro pre hpre
    have hy := yields_next mode hne
    refine List.forall_mem_cons.2 ⟨?_, ?_⟩
    · have hspan : (r.next mode).1.span =
          ⟨pre.byteSize, pre.byteSize + (r.next mode).1.text.byteSize⟩ := by
        rw [hpre, ← hy.stop, ← hy.start]
      rw [hspan, hy.rest, ← List.append_assoc]
      exact Text.slice_append pre _ _
    · have hrest : pre ++ r.rest = (pre ++ (r.next mode).1.text) ++ (r.next mode).2.rest := by
        rw [hy.rest, List.append_assoc]
      rw [hrest]
      refine ih _ ?_
      rw [Text.byteSize_append, hpre, hy.offset, hy.stop]

end Reads

theorem resume_zero (text : Text) : resume text 0 = ofText text := by
  rw [resume, Text.dropBytes_zero, Text.takeBytes_zero]
  rfl

theorem resume_offset (text : Text) (offset : Nat) :
    (resume text offset).position.offset = (text.takeBytes offset).byteSize := by
  rw [resume, Position.advance_offset]
  exact Nat.zero_add _

theorem tokens_eof {r : Reader} {mode : Mode} : (r.tokens mode).eof.kind = .eof := by
  obtain ⟨r', mode', h, hnil⟩ := r.reads_tokens mode
  rw [h.tokens_eq.2, tokens_nil mode' hnil]
  exact (next_eof mode' hnil).1

end Reader

namespace Input

theorem proper_ofText (text : Text) (offset takenEnd : Nat) (mode : Mode) :
    (ofText text offset takenEnd mode).Proper := by
  obtain ⟨r', mode', h, _⟩ := (Reader.resume text offset).reads_tokens mode
  exact ⟨Reader.tokens_eof, h.kind_isLexed, h.solid⟩

theorem tokens_ofText_zero (text : Text) (takenEnd : Nat) :
    (ofText text 0 takenEnd .statementStart).tokens = lex text := by
  rw [ofText, Reader.resume_zero]
  rfl

end Input

/-- All tokens of a text, read up to its end. -/
theorem lex_reads (text : Text) : ∃ r mode, Reader.Reads (.ofText text) .statementStart (lex text)
    r mode ∧ r.rest = [] ∧ r.position.offset = text.byteSize ∧
      Reader.Reads.textOf (lex text) = text := by
  obtain ⟨r, mode, h, hnil⟩ := (Reader.ofText text).reads_tokens .statementStart
  have htext : Reader.Reads.textOf (lex text) = text := by
    have := h.rest_eq
    rw [hnil, List.append_nil] at this
    exact this.symm
  refine ⟨r, mode, h, hnil, ?_, htext⟩
  rw [h.offset_eq]
  change 0 + (Reader.Reads.textOf (lex text)).byteSize = _
  rw [htext, Nat.zero_add]

/-- The span of a token cuts out its text. -/
theorem slice_lex (text : Text) : ∀ t ∈ lex text, text.slice t.span = t.text := by
  obtain ⟨r, mode, h, _⟩ := lex_reads text
  exact h.slice_eq [] rfl

/-! ## The forest of a document -/

/-- The input on which a document is read. -/
def Input.start (text : Text) : Input := .ofText text 0 0 .statementStart

/-- What a document takes and leaves. -/
theorem Rule.exists_forest {i : Input} (hi : i.Proper) : ∃ f,
    (document i).output.events = .start .document :: (Skeleton.eventsAll f ++ [.finish]) ∧
      (∀ s ∈ f, s.Proper) ∧ List.Forall₂ Trace.Leaf i.tokens (leavesOf (Skeleton.eventsAll f)) := by
  have hspec := spec_contents (P := fun _ => True) i hi (Nat.le_refl i.taken) trivial
  obtain ⟨xs, f, ht, he⟩ := hspec.trace
  have hj := hspec.proper hi
  refine ⟨f ++ Skeleton.trivia (contents i).rest.tokens, ?_, ?_, ?_⟩
  · rw [document_run hi, Skeleton.eventsAll_append, Skeleton.eventsAll_trivia, ← he]
    rfl
  · refine List.forall_mem_append.2 ⟨ht.forest_proper hi, fun s hs => ?_⟩
    obtain ⟨t, ht, rfl⟩ := List.mem_map.1 hs
    exact .leaf (Token.ShownAs.same.lexedAs (hj.lexed t ht)).2 (hj.solid t ht)
  · rw [Skeleton.eventsAll_append, leavesOf_append, ht.tokens_eq]
    exact List.rel_append ht.shown (Trace.leaf_trivia _)

theorem Rule.document_forest (text : Text) : ∃ f,
    (document (.start text)).output.events = .start .document :: (Skeleton.eventsAll f ++ [.finish]) ∧
      (∀ s ∈ f, s.Proper) ∧ List.Forall₂ Trace.Leaf (lex text) (leavesOf (Skeleton.eventsAll f)) := by
  have h := exists_forest (Input.proper_ofText text 0 0 .statementStart)
  rwa [Input.tokens_ofText_zero] at h

/-- Every diagnostic stands at a token taken or right after one. -/
theorem Rule.located_of_proper {i : Input} (hi : i.Proper) :
    ∀ d ∈ (document i).output.diagnostics, ∃ t ∈ i.tokens, Trace.At d t := by
  have hspec := spec_contents (P := fun _ => True) i hi (Nat.le_refl i.taken) trivial
  obtain ⟨xs, f, ht, _⟩ := hspec.trace
  rw [document_run hi, ht.tokens_eq]
  refine List.forall_mem_append.2 ⟨fun d hd => ?_, fun d hd => ?_⟩
  · rcases ht.located d hd with ⟨t, ht, hdt⟩ | ⟨hlt, _⟩
    · exact ⟨t, List.mem_append_left _ ht, hdt⟩
    · exact absurd hlt (Nat.lt_irrefl _)
  · obtain ⟨t, ht, hdt⟩ := Trace.at_trivia hd
    exact ⟨t, List.mem_append_right _ ht, hdt⟩

theorem Rule.document_located (text : Text) :
    ∀ d ∈ (document (.start text)).output.diagnostics, ∃ t ∈ lex text, Trace.At d t := by
  have h := located_of_proper (Input.proper_ofText text 0 0 .statementStart)
  rwa [Input.tokens_ofText_zero] at h

theorem leafSpans_of_forall₂ {ts : List Token} {es : List Event}
    (h : List.Forall₂ Trace.Leaf ts (leavesOf es)) : leafSpans es = ts.map Token.span := by
  rw [leafSpans]
  generalize leavesOf es = ls at h
  induction h with
  | nil => rfl
  | cons hl _ ih => rw [List.map_cons, List.map_cons, ih, hl.span]

theorem adjoin_lex (text : Text) : Adjoin 0 text.byteSize ((lex text).map Token.span) := by
  obtain ⟨r, mode, h, _, hoff, _⟩ := lex_reads text
  exact hoff ▸ h.adjoin

/-- The tree of a text: a root around nodes that stand for the forest of the document. -/
theorem parse_built (text : Text) (options : Options) : ∃ f ns,
    (Rule.document (.start text)).output.events =
      .start .document :: (Skeleton.eventsAll f ++ [.finish]) ∧
    List.Forall₂ Trace.Leaf (lex text) (leavesOf (Skeleton.eventsAll f)) ∧
    Node.Built f 1 0 text.byteSize ns ∧
    (parse text options).tree = ⟨text, ⟨0, .document, ⟨0, text.byteSize⟩, ns⟩,
      1 + (ns.map Node.size).sum, 0⟩ := by
  obtain ⟨f, he, hproper, hleaf⟩ := Rule.document_forest text
  have hadjoin : Adjoin 0 text.byteSize (leafSpans (Skeleton.eventsAll f)) := by
    rw [leafSpans_of_forall₂ hleaf]
    exact adjoin_lex text
  obtain ⟨ns, hns, htree⟩ := Tree.ofEvents_document hproper hadjoin text
  refine ⟨f, ns, he, hleaf, hns, ?_⟩
  rw [← htree, ← he]
  rfl

/-! ## Leaves and tokens -/

/-- A leaf stands for a token: at the same place and of the same kind, but for the identifiers that
the grammar reads as words of its own. -/
structure Node.StandsFor (leaf : Node) (t : Token) : Prop where
  span : leaf.span = t.span
  kind : leaf.kind = t.kind ∧ leaf.kind ≠ .freeKw ∧ leaf.kind ≠ .sosType ∨
    leaf.kind = .freeKw ∧ t.kind = .ident ∧ Text.sameLetters "free".toList t.text = true ∨
    leaf.kind = .sosType ∧ t.kind = .ident ∧
      (Text.sameLetters "s1".toList t.text = true ∨ Text.sameLetters "s2".toList t.text = true)

theorem Node.standsFor_of_leaf {leaf : Node} {t : Token} (ht : t.kind.isLexed = true)
    (h : Trace.Leaf t (leaf.kind, leaf.span)) : leaf.StandsFor t := by
  obtain ⟨hs, hspan⟩ := h
  refine ⟨hspan, ?_⟩
  generalize hk : (leaf.kind, leaf.span).1 = kind at hs
  change leaf.kind = kind at hk
  rw [hk]
  cases hs with
  | same =>
    refine .inl ⟨rfl, ?_, ?_⟩
    · intro h
      rw [h] at ht
      cases ht
    · intro h
      rw [h] at ht
      cases ht
  | free hident h =>
    refine .inr (.inl ⟨rfl, hident, ?_⟩)
    simpa [Grammar.isFree, Grammar.freeWords] using h
  | sosType hident h =>
    refine .inr (.inr ⟨rfl, hident, ?_⟩)
    simpa [Grammar.isSosType, Grammar.sosTypes] using h

theorem flatMap_slice {text : Text} {ls : List Node} {ts : List Token}
    (h : List.Forall₂ Node.StandsFor ls ts) (hs : ∀ t ∈ ts, text.slice t.span = t.text) :
    ls.flatMap (fun n => text.slice n.span) = Reader.Reads.textOf ts := by
  induction h with
  | nil => rfl
  | cons hl _ ih =>
    obtain ⟨ht, hts⟩ := List.forall_mem_cons.1 hs
    rw [List.flatMap_cons, ih hts, hl.span, ht]
    rfl

/-- The leaves of the root are the leaves of the forest. -/
theorem leaves_parse_eq {f : List Skeleton} {ns : List Node} {first a z : Nat}
    (h : Node.Built f first a z ns) (id : Nat) (span : Span) :
    (Node.leaves ⟨id, .document, span, ns⟩).map (fun m => (m.kind, m.span)) =
      leavesOf (Skeleton.eventsAll f) := by
  rw [Node.leaves_eq, if_neg Bool.noConfusion, ← h.skeletons, Skeleton.eventsAll_eq_flatMap, leavesOf,
    List.filterMap_flatMap, List.map_flatMap, List.flatMap_map, List.flatMap_def, List.flatMap_def]
  refine congrArg List.flatten (List.map_congr_left fun n hn => ?_)
  exact (h.fitted n hn).leavesOf_eq.symm

/-- **The leaves of the tree are the tokens of the text**, one for one and in order, and their texts
make up the text. -/
theorem leaves_parse (text : Text) (options : Options) :
    List.Forall₂ Node.StandsFor (parse text options).tree.root.leaves (lex text) ∧
      (parse text options).tree.root.leaves.flatMap (parse text options).tree.textOf = text := by
  obtain ⟨f, ns, _, hleaf, hns, htree⟩ := parse_built text options
  obtain ⟨r, mode, hreads, _, _, htext⟩ := lex_reads text
  rw [htree]
  have hstands : List.Forall₂ Node.StandsFor
      (Node.leaves ⟨0, .document, ⟨0, text.byteSize⟩, ns⟩) (lex text) := by
    rw [← leaves_parse_eq hns 0 ⟨0, text.byteSize⟩, List.forall₂_map_right_iff] at hleaf
    refine (((List.forall₂_and_left _ _).2 ⟨hreads.kind_isLexed, hleaf⟩).imp ?_).flip
    exact fun t leaf h => Node.standsFor_of_leaf h.1 h.2
  refine ⟨hstands, ?_⟩
  exact (flatMap_slice hstands (slice_lex text)).trans htext

end LpFormat
