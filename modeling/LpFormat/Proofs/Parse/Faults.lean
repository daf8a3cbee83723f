import LpFormat.Proofs.Parse.Arrange
import LpFormat.Proofs.Parse.Schema
import LpFormat.Proofs.Parse.Trivia
import LpFormat.Proofs.Parsing.Trim

/-!
# Diagnostics account for the faults of a tree

With no cap, the diagnostics tell what is wrong with a tree, neither more nor less.

* `Node.leavesOutside`: the leaves of a node that are in no node of a kind;
* `Tree.openComments`, `Node.openSections`: the comment and the section that the end of a text
  leaves open;
* `spansOf_sorted`: sorting does not change the order of what is in order already;
* **`diagnostics_account`**: error nodes, malformed numbers, comments, sections and missing pieces.
-/

namespace LpFormat

/-! ## Faults of a tree -/

namespace Node

mutual

/-- The leaves of a node that are in no node of a kind. -/
def leavesOutside (k : Kind) : Node → List Node
  | ⟨id, kind, span, children⟩ =>
    if kind = k then []
    else if kind.isToken then [⟨id, kind, span, children⟩]
    else leavesOutsideAll k children

/-- The leaves of some nodes that are in no node of a kind. -/
def leavesOutsideAll (k : Kind) : List Node → List Node
  | [] => []
  | n :: ns => n.leavesOutside k ++ leavesOutsideAll k ns

end

/-- The section that the end of a document leaves open: the last one, if there is no `End`. -/
def openSections (root : Node) : List Node :=
  if root.children.any fun n => n.kind == .endNode then []
  else (root.children.filter fun n => n.kind == .sectionNode).getLast?.toList

/-- The keyword of a section. -/
def keyword? (n : Node) : Option Node := n.children.find? fun c => c.kind.isSectionKeyword

end Node

/-- The comment that the end of a text leaves open: the last leaf, if it is a block comment that has
no closing mark after its opening one. -/
def Tree.openComments (t : Tree) : List Node :=
  t.root.leaves.getLast?.toList.filter fun l =>
    l.kind = .blockComment ∧ ¬ ['*', '\\'] <:+: (t.textOf l).drop 2

/-! ## Sorting -/

/-- Sorting does not change the order of what is in order already. -/
theorem spansOf_sorted {k : ProblemKind} {ds : List Diagnostic}
    (h : (spansOf k ds).Pairwise fun s t => s.start < t.start) :
    spansOf k (Diagnostic.sorted ds) = spansOf k ds := by
  rw [spansOf, Diagnostic.filter_sorted, Diagnostic.sorted, List.mergeSort_of_pairwise]
  · rfl
  · refine (List.pairwise_map.1 h).imp fun hlt => ?_
    rw [Diagnostic.notAfter_iff]
    exact .inl hlt

theorem pairwise_of_length_le {α : Type} {R : α → α → Prop} {l : List α} (h : l.length ≤ 1) :
    l.Pairwise R := by
  match l, h with
  | [], _ => exact .nil
  | [a], _ => exact List.pairwise_singleton R a

theorem length_toList_le {α : Type} {o : Option α} : o.toList.length ≤ 1 := by
  cases o with
  | none => exact Nat.zero_le 1
  | some a => exact Nat.le_refl 1

/-- At most one section is left open. -/
theorem Skeleton.length_unclosed_le (f : List Skeleton) : (unclosed f).length ≤ 1 := by
  rw [unclosed]
  split_ifs
  · exact Nat.zero_le 1
  · rw [lastKeyword, List.length_map]
    exact length_toList_le

theorem pairwise_lex (text : Text) :
    ((lex text).map Token.span).Pairwise fun s t => s.start < t.start := by
  obtain ⟨r, mode, hreads, _⟩ := lex_reads text
  have hsolid := hreads.solid
  have hpairs := List.pairwise_map.1 (adjoin_lex text).pairwise
  refine List.pairwise_map.2 (hpairs.imp_of_mem fun {t u} ht _ h => ?_)
  exact Nat.lt_of_lt_of_le (hsolid t ht) h

/-! ## Error nodes and malformed numbers -/

namespace Skeleton

theorem leafSpans_cons (s : Skeleton) (f : List Skeleton) :
    leafSpans (eventsAll (s :: f)) = leafSpans s.events ++ leafSpans (eventsAll f) := by
  rw [eventsAll, leafSpans_append]

/-- Malformed numbers are leaves. -/
theorem looseNumbersAll_sublist {f : List Skeleton}
    (h : ∀ s ∈ f, s.looseNumbers.Sublist (leafSpans s.events)) :
    (looseNumbersAll f).Sublist (leafSpans (eventsAll f)) := by
  induction f with
  | nil => exact .slnil
  | cons s f ih =>
    obtain ⟨hs, hf⟩ := List.forall_mem_cons.1 h
    rw [looseNumbersAll, leafSpans_cons]
    exact hs.append (ih hf)

theorem errorStartsAll_sublist {f : List Skeleton}
    (h : ∀ s ∈ f, s.errorStarts.Sublist (leafSpans s.events)) :
    (errorStartsAll f).Sublist (leafSpans (eventsAll f)) := by
  induction f with
  | nil => exact .slnil
  | cons s f ih =>
    obtain ⟨hs, hf⟩ := List.forall_mem_cons.1 h
    rw [errorStartsAll, leafSpans_cons]
    exact hs.append (ih hf)

theorem Schematic.looseNumbers_sublist {s : Skeleton} (h : s.Schematic) :
    s.looseNumbers.Sublist (leafSpans s.events) := by
  induction h with
  | leaf kind span =>
    rw [looseNumbers]
    split_ifs
    · exact List.Sublist.refl _
    · exact List.nil_sublist _
  | @node kind f _ _ ih =>
    rw [looseNumbers, events, leafSpans_enclosed]
    split_ifs
    · exact List.nil_sublist _
    · exact looseNumbersAll_sublist ih

/-- An error node holds tokens only. -/
theorem Schematic.errorStarts_sublist {s : Skeleton} (h : s.Schematic) (hp : s.Proper) :
    s.errorStarts.Sublist (leafSpans s.events) := by
  induction h with
  | leaf kind span => exact List.nil_sublist _
  | @node kind f hk _ ih =>
    obtain ⟨_, _, hproper⟩ : kind.isNode = true ∧ f ≠ [] ∧ ∀ c ∈ f, c.Proper := by
      cases hp with
      | node hk hne hc => exact ⟨hk, hne, hc⟩
    have hall := errorStartsAll_sublist fun s hs => ih s hs (hproper s hs)
    rw [errorStarts, events, leafSpans_enclosed]
    split_ifs with herr
    · have hleaves : errorStartsAll f = [] := by
        refine errorStartsAll_leaves fun s hs => ?_
        cases hproper s hs with
        | leaf _ _ => exact ⟨_, _, rfl⟩
        | @node k c hnode _ _ =>
          rw [herr] at hk
          have := hk k (mem_kinds hs (Kind.not_isTrivia_of_isNode hnode))
          rw [Kind.isToken, hnode] at this
          cases this
      rw [hleaves, List.append_nil, leafSpans]
      refine List.Sublist.map _ ?_
      cases leavesOf (eventsAll f) with
      | nil => exact .slnil
      | cons l ls => exact (List.nil_sublist ls).cons_cons l
    · exact hall

end Skeleton

namespace Node

theorem leavesOutsideAll_eq_flatMap (k : Kind) (ns : List Node) :
    leavesOutsideAll k ns = ns.flatMap (leavesOutside k) := by
  induction ns with
  | nil => rfl
  | cons n ns ih => rw [leavesOutsideAll, ih, List.flatMap_cons]

theorem leavesOutside_of_isNode {k : Kind} {n : Node} (h : n.kind.isNode = true) (hk : n.kind ≠ k) :
    n.leavesOutside k = n.children.flatMap (leavesOutside k) := by
  obtain ⟨id, kind, span, children⟩ := n
  have htoken : ¬ kind.isToken = true := by simpa [Kind.isToken] using h
  rw [leavesOutside, if_neg hk, if_neg htoken, leavesOutsideAll_eq_flatMap]

/-- The error nodes of a tree and those of its skeleton begin at the same places. -/
theorem Fitted.errorStarts_eq {n : Node} (h : n.Fitted) :
    (n.descendants.filter fun m => m.kind == .errorNode).map
      (fun m => m.leaves.head?.map Node.span) = n.skeleton.errorStarts.map some := by
  induction h with
  | @token id kind span hk _ =>
    have herr : ¬ (kind == .errorNode) = true := by
      rw [beq_iff_eq]
      rintro rfl
      cases hk
    rw [skeleton_of_isToken hk, descendants_eq]
    simp [herr, Skeleton.errorStarts]
  | @node id kind span children hk hne hs hc ih =>
    have hbelow : ((children.flatMap descendants).filter fun m => m.kind == .errorNode).map
        (fun m => m.leaves.head?.map Node.span) =
        (Skeleton.errorStartsAll (children.map skeleton)).map some := by
      rw [List.filter_flatMap, List.map_flatMap, Skeleton.errorStartsAll_eq_flatMap,
        List.map_flatMap, List.flatMap_map, List.flatMap_def, List.flatMap_def]
      exact congrArg List.flatten (List.map_congr_left ih)
    have hfit : Fitted ⟨id, kind, span, children⟩ := .node hk hne hs hc
    have hleaves := hfit.leavesOf_eq
    rw [skeleton_of_isNode hk] at hleaves ⊢
    rw [Skeleton.events, leavesOf_enclosed] at hleaves
    rw [descendants_eq, Skeleton.errorStarts, List.map_append, ← hbelow, hleaves]
    by_cases herr : kind = .errorNode
    · obtain ⟨l, ls, hl⟩ := List.exists_cons_of_ne_nil hfit.leaves_ne
      rw [List.filter_cons_of_pos (by simpa using herr), if_pos herr, hl, List.map_cons, hl]
      rfl
    · rw [List.filter_cons_of_neg (by simpa using herr), if_neg herr]
      rfl

/-- The malformed numbers of a tree and those of its skeleton stand at the same places. -/
theorem Fitted.looseNumbers_eq {n : Node} (h : n.Fitted) :
    ((n.leavesOutside .errorNode).filter fun l => l.kind == .invalidNumber).map Node.span =
      n.skeleton.looseNumbers := by
  induction h with
  | @token id kind span hk _ =>
    have herr : kind ≠ .errorNode := by
      rintro rfl
      cases hk
    rw [skeleton_of_isToken hk, leavesOutside, if_neg herr, if_pos hk, Skeleton.looseNumbers]
    by_cases hbad : kind = .invalidNumber
    · simp [hbad]
    · simp [hbad]
  | @node id kind span children hk _ _ _ ih =>
    rw [skeleton_of_isNode hk, Skeleton.looseNumbers]
    by_cases herr : kind = .errorNode
    · rw [leavesOutside, if_pos herr, if_pos herr]
      rfl
    · rw [leavesOutside_of_isNode hk herr, if_neg herr, List.filter_flatMap, List.map_flatMap,
        Skeleton.looseNumbersAll_eq_flatMap, List.flatMap_map, List.flatMap_def, List.flatMap_def]
      exact congrArg List.flatten (List.map_congr_left ih)

/-! ## Sections -/

theorem keyword?_eq (n : Node) (h : n.kind.isNode = true) :
    n.keyword?.map Node.span = n.skeleton.opening? := by
  rw [skeleton_of_isNode h, Skeleton.opening?, keyword?]
  induction n.children with
  | nil => rfl
  | cons c cs ih =>
    by_cases hk : c.kind.isSectionKeyword = true
    · have htoken := Kind.isToken_of_isSectionKeyword hk
      have hself : c.skeleton.keyword? = some c.span := by
        rw [skeleton_of_isToken htoken, Skeleton.keyword?, if_pos hk]
      rw [List.find?_cons_of_pos (by exact hk), List.map_cons, List.findSome?_cons, hself]
      rfl
    · have hself : c.skeleton.keyword? = none := by
        by_cases htoken : c.kind.isToken = true
        · rw [skeleton_of_isToken htoken, Skeleton.keyword?, if_neg hk]
        · rw [skeleton_of_isNode (by simpa [Kind.isToken] using htoken)]
          rfl
      rw [List.find?_cons_of_neg (by exact hk), List.map_cons, List.findSome?_cons, hself, ih]

/-- The section that a document leaves open is the one that its skeleton leaves open. -/
theorem openSections_eq (root : Node) :
    root.openSections.map (fun n => n.keyword?.map Node.span) =
      Skeleton.unclosed (root.children.map skeleton) := by
  have hfilter : ((root.children.map skeleton).filter fun s => s.kind == .sectionNode) =
      (root.children.filter fun n => n.kind == .sectionNode).map skeleton := by
    rw [List.filter_map]
    refine congrArg _ (List.filter_congr fun n _ => ?_)
    exact congrArg (· == Kind.sectionNode) (kind_skeleton n)
  have hend : .endNode ∈ Skeleton.kinds (root.children.map skeleton) ↔
      (root.children.any fun n => n.kind == .endNode) = true := by
    rw [kinds_skeletons, List.mem_filter, List.mem_map, List.any_eq_true]
    simp [Kind.isTrivia]
  rw [openSections, Skeleton.unclosed]
  by_cases h : (root.children.any fun n => n.kind == .endNode) = true
  · rw [if_pos h, if_pos (hend.2 h)]
    rfl
  · rw [if_neg h, if_neg (mt hend.1 h), Skeleton.lastKeyword, hfilter, List.getLast?_map]
    cases hl : (root.children.filter fun n => n.kind == .sectionNode).getLast? with
    | none => rfl
    | some n =>
      have hk : n.kind = .sectionNode := by
        have := (List.mem_filter.1 (List.mem_of_getLast? hl)).2
        simpa using this
      exact congrArg (fun o => [o]) (keyword?_eq n (hk ▸ rfl))

end Node

/-! ## Comments -/

/-- The rest of a comment has its closing mark at its end or nowhere. -/
theorem Lexeme.suffix_of_infix {m x : Text} (h : commentTailLength (m ++ x) = m.length)
    (hin : ['*', '\\'] <:+: m) : ['*', '\\'] <:+ m := by
  induction m with
  | nil => exact absurd hin (by decide)
  | cons c m ih =>
    rw [List.cons_append, commentTailLength_cons, List.length_cons] at h
    split_ifs at h with hc
    · obtain ⟨rfl, hhead⟩ := hc
      obtain ⟨d, rfl⟩ : ∃ d, m = [d] := List.length_eq_one_iff.1 (by omega)
      obtain rfl : d = '\\' := by simpa using hhead
      exact List.suffix_refl _
    · refine (ih (by omega) ?_).trans (List.suffix_cons c m)
      rcases List.infix_cons_iff.1 hin with hstart | hrest
      · obtain ⟨rfl, hm⟩ := List.cons_prefix_cons.1 hstart
        obtain ⟨m', rfl⟩ := hm
        exact absurd ⟨rfl, rfl⟩ hc
      · exact hrest

theorem isClosedComment_iff (m : Text) :
    isClosedComment ('\\' :: '*' :: m) = true ↔ ['*', '\\'] <:+ m := by
  have h₁ : Char.utf8Size '\\' = 1 := rfl
  have h₂ : Char.utf8Size '*' = 1 := rfl
  rw [isClosedComment, Bool.and_eq_true, decide_eq_true_eq, List.isSuffixOf_iff_suffix]
  refine ⟨?_, fun h => ⟨?_, h.trans ⟨['\\', '*'], rfl⟩⟩⟩
  · rintro ⟨hsize, u, hu⟩
    rcases u with _ | ⟨_, _ | ⟨_, u⟩⟩
    · cases hu
    · cases hu
      simp [Text.byteSize_cons, h₁, h₂] at hsize
    · exact ⟨u, (List.cons.inj (List.cons.inj hu).2).2⟩
  · obtain ⟨m', rfl⟩ := h
    rw [Text.byteSize_cons, Text.byteSize_cons, Text.byteSize_append, h₁, h₂]
    have : Text.byteSize ['*', '\\'] = 2 := rfl
    omega

/-- A comment that was read is closed if there is a closing mark after its opening one. -/
theorem Reader.Reads.isClosed_iff {r r' : Reader} {mode mode' : Mode} {ts : List Token}
    (h : Reads r mode ts r' mode') : ∀ t ∈ ts, t.kind = .blockComment →
      (isClosedComment t.text = true ↔ ['*', '\\'] <:+: t.text.drop 2) := by
  induction h with
  | nil r mode => exact List.forall_mem_nil _
  | @cons r r' mode mode' ts hr hts ih =>
    refine List.forall_mem_cons.2 ⟨fun hk => ?_, ih⟩
    have hy := yields_next mode hr
    have hscan := hy.scan
    rw [hy.rest, hk] at hscan
    obtain ⟨m, hm, htail⟩ := Lexeme.blockComment_cases hscan hy.text_ne
    rw [hm, isClosedComment_iff]
    exact ⟨List.IsSuffix.isInfix, Lexeme.suffix_of_infix htail⟩

/-- Only the last token can be a comment that is not closed. -/
theorem Reader.Reads.filterMap_comments {r r' : Reader} {mode mode' : Mode} {ts : List Token}
    (h : Reads r mode ts r' mode') :
    ts.filterMap Rule.commentDiagnostic? = ts.getLast?.toList.filterMap Rule.commentDiagnostic? := by
  induction h with
  | nil r mode => rfl
  | @cons r r' mode mode' ts hr hts ih =>
    cases ts with
    | nil => rfl
    | cons u us =>
      have hclosed : ∀ t ∈ [(r.next mode).1], t.kind = .blockComment →
          isClosedComment t.text = true := by
        refine (Reads.cons hr (.nil _ _)).closed ?_
        cases hts with
        | cons hne _ => exact hne
      have hnone : Rule.commentDiagnostic? (r.next mode).1 = none := by
        rw [Rule.commentDiagnostic?, if_neg]
        rintro ⟨hk, hopen⟩
        exact hopen (hclosed _ List.mem_cons_self hk)
      rw [List.filterMap_cons_none hnone, ih, List.getLast?_cons_cons]

theorem Rule.document_comments {i : Input} (hi : i.Proper) :
    (document i).output.diagnostics.filter Trace.ofComment =
      i.tokens.filterMap commentDiagnostic? := by
  have hspec := spec_contents (P := fun _ => True) i hi (Nat.le_refl i.taken) trivial
  obtain ⟨xs, f, ht, _⟩ := hspec.trace
  rw [document_run hi, ht.tokens_eq, List.filterMap_append, ← ht.comments_eq,
    ← Trace.filter_comments (contents i).rest.tokens, ← List.filter_append]
  rfl

theorem spansOf_lexError (ds : List Diagnostic) :
    spansOf .lexError ds = (ds.filter Trace.ofComment).map Diagnostic.span := by
  rw [spansOf]
  refine congrArg _ (List.filter_congr fun d _ => ?_)
  obtain ⟨problem, span⟩ := d
  cases problem <;> rfl

theorem Token.ShownAs.blockComment_iff {t : Token} {k : Kind} (h : t.ShownAs k) :
    k = .blockComment ↔ t.kind = .blockComment := by
  cases h with
  | same => rfl
  | free hk _ => simp [hk]
  | sosType hk _ => simp [hk]

/-- The comment that a tree leaves open is the one that is reported. -/
theorem openComments_eq {text : Text} {tree : Tree} (htext : tree.text = text)
    (h : List.Forall₂ Trace.Leaf (lex text) (tree.root.leaves.map fun l => (l.kind, l.span))) :
    tree.openComments.map Node.span =
      ((lex text).filterMap Rule.commentDiagnostic?).map Diagnostic.span := by
  obtain ⟨r, mode, hreads, _⟩ := lex_reads text
  rw [List.forall₂_map_right_iff, ← List.forall₂_reverse_iff] at h
  rw [hreads.filterMap_comments, Tree.openComments, List.getLast?_eq_head?_reverse,
    List.getLast?_eq_head?_reverse]
  have hmem : ∀ t ∈ (lex text).reverse, t ∈ lex text := fun t ht => List.mem_reverse.1 ht
  generalize (lex text).reverse = ts at h hmem
  generalize tree.root.leaves.reverse = ls at h
  cases h with
  | nil => rfl
  | @cons t l ts ls htl _ =>
    have ht : t ∈ lex text := hmem t List.mem_cons_self
    have hspan : l.span = t.span := htl.span
    have hkind : l.kind = .blockComment ↔ t.kind = .blockComment := htl.shown.blockComment_iff
    have htextOf : tree.textOf l = t.text := by
      rw [Tree.textOf, htext, hspan, slice_lex text t ht]
    have hclosed := hreads.isClosed_iff t ht
    change (List.filter _ [l]).map _ = (List.filterMap _ [t]).map _
    by_cases hopen : t.kind = .blockComment ∧ ¬ isClosedComment t.text = true
    · have hl : l.kind = .blockComment ∧ ¬ ['*', '\\'] <:+: (tree.textOf l).drop 2 := by
        rw [hkind, htextOf, ← hclosed hopen.1]
        exact hopen
      have hsome : Rule.commentDiagnostic? t = some ⟨.unclosedComment, t.span⟩ := if_pos hopen
      rw [List.filter_cons_of_pos (by simpa using hl), List.filterMap_cons_some hsome]
      exact congrArg (fun s => [s]) hspan
    · have hl : ¬ (l.kind = .blockComment ∧ ¬ ['*', '\\'] <:+: (tree.textOf l).drop 2) := by
        rintro ⟨hk, hin⟩
        rw [htextOf, ← hclosed (hkind.1 hk)] at hin
        exact hopen ⟨hkind.1 hk, hin⟩
      have hnone : Rule.commentDiagnostic? t = none := if_neg hopen
      rw [List.filter_cons_of_neg (by simpa using hl), List.filterMap_cons_none hnone]
      rfl

theorem Node.Fitted.proper {n : Node} (h : n.Fitted) : n.skeleton.Proper := by
  induction h with
  | token hk hs =>
    rw [skeleton_of_isToken hk]
    exact .leaf hk hs
  | node hk hne _ _ ih =>
    rw [skeleton_of_isNode hk]
    refine .node hk (by simpa using hne) fun s hs => ?_
    obtain ⟨c, hc, rfl⟩ := List.mem_map.1 hs
    exact ih c hc

theorem exists_of_forall₂ {α β : Type} {R : α → β → Prop} {xs : List α} {ys : List β}
    (h : List.Forall₂ R xs ys) : ∀ x ∈ xs, ∃ y ∈ ys, R x y := by
  induction h with
  | nil => exact List.forall_mem_nil _
  | cons hxy _ ih =>
    refine List.forall_mem_cons.2 ⟨⟨_, List.mem_cons_self, hxy⟩, fun x hx => ?_⟩
    obtain ⟨y, hy, hR⟩ := ih x hx
    exact ⟨y, List.mem_cons_of_mem _ hy, hR⟩

/-- A missing piece is reported right after a leaf that is not trivia. -/
theorem exists_leaf_before {text : Text} {leaves : List Node}
    (h : List.Forall₂ Trace.Leaf (lex text) (leaves.map fun l => (l.kind, l.span))) {d : Diagnostic}
    (hd : d ∈ (Rule.document (.start text)).output.diagnostics)
    (hempty : d.span.start = d.span.stop) :
    ∃ l ∈ leaves, l.kind.isTrivia = false ∧ l.span.stop = d.span.start := by
  obtain ⟨r, mode, hreads, _⟩ := lex_reads text
  obtain ⟨t, ht, hat⟩ := Rule.document_located text d hd
  have hsolid := hreads.solid t ht
  rcases hat with hspan | ⟨hk, hspan⟩
  · rw [hspan] at hempty
    omega
  · rw [List.forall₂_map_right_iff] at h
    obtain ⟨l, hl, htl⟩ := exists_of_forall₂ h t ht
    have hlspan : l.span = t.span := htl.span
    refine ⟨l, hl, htl.shown.isTrivia_eq.trans hk, ?_⟩
    rw [hlspan, hspan]
    rfl

/-- **With no cap, the diagnostics account exactly for the faults of a tree.** They are sorted. Each
error node is reported where it begins, and each malformed number outside of error nodes; a comment or
a section that the end of the text leaves open is reported, the section at its keyword; and missing
pieces are reported right after a token that is not trivia. -/
theorem diagnostics_account (text : Text) (options : Options) :
    let p := parse text { options with maxErrors := none }
    p.diagnostics.Pairwise (fun a b => a.span.start < b.span.start ∨
      a.span.start = b.span.start ∧ a.span.stop ≤ b.span.stop) ∧
    (spansOf .unexpectedToken p.diagnostics).map some =
      (p.tree.root.descendants.filter fun n => n.kind == .errorNode).map
        (fun n => n.leaves.head?.map Node.span) ∧
    spansOf .invalidNumber p.diagnostics =
      ((p.tree.root.leavesOutside .errorNode).filter fun l => l.kind == .invalidNumber).map
        Node.span ∧
    spansOf .lexError p.diagnostics = p.tree.openComments.map Node.span ∧
    (spansOf .unterminatedSection p.diagnostics).map some =
      p.tree.root.openSections.map (fun n => n.keyword?.map Node.span) ∧
    ∀ d ∈ p.diagnostics, d.problem.kind = .missingToken → d.span.start = d.span.stop ∧
      ∃ l ∈ p.tree.root.leaves, l.kind.isTrivia = false ∧ l.span.stop = d.span.start := by
  intro p
  obtain ⟨f, ns, hr, hopen, hleaf, hns, htree⟩ :=
    parse_reading text { options with maxErrors := none }
  have hdiag : p.diagnostics =
      Diagnostic.sorted (Rule.document (.start text)).output.diagnostics := rfl
  have hroot : p.tree = _ := htree
  have hschematic : ∀ s ∈ f, s.Schematic := by
    cases hr.schematic _ List.mem_cons_self with
    | node _ hf => exact hf
  have hproper : ∀ s ∈ f, s.Proper := by
    rw [← hns.skeletons]
    intro s hs
    obtain ⟨n, hn, rfl⟩ := List.mem_map.1 hs
    exact (hns.fitted n hn).proper
  have hspans : leafSpans (Skeleton.eventsAll f) = (lex text).map Token.span :=
    leafSpans_of_forall₂ hleaf
  have hpairwise := hspans ▸ pairwise_lex text
  have hleaves : List.Forall₂ Trace.Leaf (lex text)
      (p.tree.root.leaves.map fun l => (l.kind, l.span)) := by
    rw [hroot, leaves_parse_eq hns]
    exact hleaf
  refine ⟨?_, ?_, ?_, ?_, ?_, fun d hd hk => ?_⟩
  · exact (Diagnostic.pairwise_sorted _).imp Diagnostic.notAfter_iff.1
  · have herrors : spansOf .unexpectedToken (Rule.document (.start text)).output.diagnostics =
        Skeleton.errorStartsAll f := hr.errors.trans (List.append_nil _)
    have hsub := Skeleton.errorStartsAll_sublist fun s hs =>
      (hschematic s hs).errorStarts_sublist (hproper s hs)
    rw [hdiag, spansOf_sorted (herrors ▸ hpairwise.sublist hsub), herrors, hroot,
      Node.descendants_eq, List.filter_cons_of_neg Bool.noConfusion, List.filter_flatMap,
      List.map_flatMap, ← hns.skeletons, Skeleton.errorStartsAll_eq_flatMap, List.map_flatMap,
      List.flatMap_map, List.flatMap_def, List.flatMap_def]
    exact congrArg List.flatten
      (List.map_congr_left fun n hn => (hns.fitted n hn).errorStarts_eq.symm)
  · have hnumbers : spansOf .invalidNumber (Rule.document (.start text)).output.diagnostics =
        Skeleton.looseNumbersAll f := hr.numbers.trans (List.append_nil _)
    have hsub := Skeleton.looseNumbersAll_sublist fun s hs => (hschematic s hs).looseNumbers_sublist
    rw [hdiag, spansOf_sorted (hnumbers ▸ hpairwise.sublist hsub), hnumbers, hroot,
      Node.leavesOutside_of_isNode rfl Kind.noConfusion, List.filter_flatMap, List.map_flatMap,
      ← hns.skeletons, Skeleton.looseNumbersAll_eq_flatMap, List.flatMap_map, List.flatMap_def,
      List.flatMap_def]
    exact congrArg List.flatten
      (List.map_congr_left fun n hn => (hns.fitted n hn).looseNumbers_eq.symm)
  · have hcomments : spansOf .lexError (Rule.document (.start text)).output.diagnostics =
        ((lex text).filterMap Rule.commentDiagnostic?).map Diagnostic.span := by
      have hall := Rule.document_comments (Input.proper_ofText text 0 0 .statementStart)
      rw [Input.tokens_ofText_zero] at hall
      rw [spansOf_lexError, ← hall]
      rfl
    have hone : (((lex text).filterMap Rule.commentDiagnostic?).map Diagnostic.span).Pairwise
        fun s t => s.start < t.start := by
      obtain ⟨r, mode, hreads, _⟩ := lex_reads text
      rw [hreads.filterMap_comments]
      refine pairwise_of_length_le ?_
      rw [List.length_map]
      exact (List.length_filterMap_le _ _).trans length_toList_le
    rw [hdiag, spansOf_sorted (hcomments ▸ hone), hcomments]
    exact (openComments_eq (hroot ▸ rfl) hleaves).symm
  · have hone : (spansOf .unterminatedSection
        (Rule.document (.start text)).output.diagnostics).Pairwise fun s t => s.start < t.start := by
      refine pairwise_of_length_le ?_
      rw [← List.length_map (f := some), hopen]
      exact Skeleton.length_unclosed_le f
    rw [hdiag, spansOf_sorted hone, hopen, Node.openSections_eq, hroot, hns.skeletons]
  · have hmem := (Diagnostic.sorted_perm _).mem_iff.1 (hdiag ▸ hd)
    have hempty := hr.missing d hmem hk
    exact ⟨hempty, exists_leaf_before hleaves hmem hempty⟩

end LpFormat
