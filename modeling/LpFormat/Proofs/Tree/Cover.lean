import LpFormat.Proofs.Parse.Excerpt
import LpFormat.Proofs.Reparse.Invariant

/-!
# The deepest node around a span

The way down to it goes to the first child around the span. Children tile their parent, so no other
child lies around a span that is not empty, and for an empty one the first child decides between
the two that meet there.

* **`Cursor.ancestors_coverFrom`**: the nodes around a span that is not empty, from the deepest up;
* `Cursor.Meets`, `Cursor.coverFrom_meets`: the leaf at an offset;
* `Tree.leafCursors`, `Tree.eq_of_meets`: the leaves of a tree, and that one only meets an offset;
* `Tree.CoversLowest`, **`cover_lowest`**: the deepest node of every result.
-/

namespace LpFormat

namespace Cursor

/-! ## Spans that are not empty -/

/-- Whether a node in its place lies around a span. -/
def isAround (target : Span) (c : Cursor) : Bool := c.focus.span.contains target

variable {target : Span}

theorem ancestors_eq_cons (c : Cursor) : c.ancestors = c :: c.ancestors.tail := by
  obtain ⟨n, path⟩ := c
  cases path <;> rfl

/-- Below a node that does not lie around a span no node does. -/
theorem filter_descendantsFrom_eq_nil {n : Node} (hn : n.Fitted)
    (h : n.span.contains target = false) (path : List Crumb) :
    (descendantsFrom path n).filter (isAround target) = [] := by
  rw [List.filter_eq_nil_iff]
  intro c hc haround
  have hmem : c.focus ∈ n.descendants := by
    rw [← map_focus_descendantsFrom path n]
    exact List.mem_map_of_mem hc
  have hwithin := hn.span_of_mem_descendants hmem
  have htarget := contains_iff.1 haround
  rw [contains_iff.2 (by omega)] at h
  cases h

theorem filter_descendantsFromAll_eq_nil {ns : List Node} (hns : ∀ n ∈ ns, n.Fitted)
    (h : ∀ n ∈ ns, n.span.contains target = false) (id : Nat) (kind : Kind) (span : Span)
    (path : List Crumb) (before : List Node) :
    (descendantsFromAll id kind span path before ns).filter (isAround target) = [] := by
  induction ns generalizing before with
  | nil => rfl
  | cons n ns ih =>
    obtain ⟨hn, hns⟩ := List.forall_mem_cons.1 hns
    obtain ⟨h₀, h⟩ := List.forall_mem_cons.1 h
    rw [descendantsFromAll, List.filter_append, filter_descendantsFrom_eq_nil hn h₀, ih hns h]
    rfl

theorem not_contains_of_coverFromAll {id : Nat} {kind : Kind} {span : Span} {path : List Crumb}
    {before ns : List Node} (h : coverFromAll target id kind span path before ns = none) :
    ∀ n ∈ ns, n.span.contains target = false := by
  induction ns generalizing before with
  | nil => exact List.forall_mem_nil _
  | cons n ns ih =>
    rw [coverFromAll] at h
    split_ifs at h with hn
    exact List.forall_mem_cons.2 ⟨by simpa using hn, ih h⟩

theorem exists_contains_of_coverFromAll {id : Nat} {kind : Kind} {span : Span} {path : List Crumb}
    {before ns : List Node} {c : Cursor}
    (h : coverFromAll target id kind span path before ns = some c) :
    ∃ n ∈ ns, n.span.contains target = true := by
  induction ns generalizing before with
  | nil => cases h
  | cons n ns ih =>
    rw [coverFromAll] at h
    split_ifs at h with hn
    · exact ⟨n, List.mem_cons_self, hn⟩
    · obtain ⟨m, hm, hin⟩ := ih h
      exact ⟨m, List.mem_cons_of_mem n hm, hin⟩

/-- Nodes behind one that lies around a span do not, unless the span is empty. -/
theorem not_contains_of_adjoin {s : Span} {stop : Nat} {ns : List Node}
    (htarget : target.start < target.stop) (hs : s.contains target = true)
    (hns : Adjoin s.stop stop (ns.map Node.span)) : ∀ n ∈ ns, n.span.contains target = false := by
  intro n hn
  have hbehind := hns.mem (List.mem_map_of_mem hn)
  have hin := contains_iff.1 hs
  rw [Bool.eq_false_iff]
  intro hcontains
  have := contains_iff.1 hcontains
  omega

mutual

/-- **The nodes around a span that is not empty** are the deepest one and those above it. -/
theorem ancestors_coverFrom (htarget : target.start < target.stop) (path : List Crumb) {n : Node}
    (hn : n.Fitted) (hin : n.span.contains target = true) :
    (coverFrom target path n).ancestors =
      ((descendantsFrom path n).filter (isAround target)).reverse ++
        (⟨n, path⟩ : Cursor).ancestors.tail := by
  match n with
  | ⟨id, kind, span, children⟩ =>
    have hself : isAround target ⟨⟨id, kind, span, children⟩, path⟩ = true := hin
    rw [coverFrom, descendantsFrom, List.filter_cons_of_pos hself, List.reverse_cons,
      List.append_assoc, List.singleton_append, ← ancestors_eq_cons]
    cases hc : coverFromAll target id kind span path [] children with
    | none =>
      rw [filter_descendantsFromAll_eq_nil hn.children (not_contains_of_coverFromAll hc)]
      rfl
    | some c =>
      by_cases hnil : children = []
      · rw [hnil] at hc
        cases hc
      · exact ancestors_coverFromAll htarget hn.children (hn.tiled hnil).1.adjoin hc

theorem ancestors_coverFromAll (htarget : target.start < target.stop) {id : Nat} {kind : Kind}
    {span : Span} {path : List Crumb} {before ns : List Node} {start stop : Nat}
    (hns : ∀ n ∈ ns, n.Fitted) (hs : Adjoin start stop (ns.map Node.span)) {c : Cursor}
    (hc : coverFromAll target id kind span path before ns = some c) :
    c.ancestors =
      ((descendantsFromAll id kind span path before ns).filter (isAround target)).reverse ++
        (⟨⟨id, kind, span, before.reverse ++ ns⟩, path⟩ : Cursor).ancestors := by
  match ns with
  | [] => cases hc
  | n :: ns =>
    obtain ⟨hn, hns⟩ := List.forall_mem_cons.1 hns
    rw [coverFromAll] at hc
    rw [descendantsFromAll, List.filter_append]
    split_ifs at hc with hin
    · cases hc
      rw [filter_descendantsFromAll_eq_nil hns (not_contains_of_adjoin htarget hin hs.2.2),
        List.append_nil]
      exact ancestors_coverFrom htarget _ hn hin
    · rw [filter_descendantsFrom_eq_nil hn (by simpa using hin), List.nil_append,
        ancestors_coverFromAll htarget hns hs.2.2 hc, List.reverse_cons, List.append_assoc,
        List.singleton_append]

end

theorem coverFrom_eq_self {n : Node} (h : ∀ m ∈ n.children, m.span.contains target = false)
    (path : List Crumb) : coverFrom target path n = ⟨n, path⟩ := by
  obtain ⟨id, kind, span, children⟩ := n
  rw [coverFrom]
  cases hc : coverFromAll target id kind span path [] children with
  | none => rfl
  | some c =>
    obtain ⟨m, hm, hin⟩ := exists_contains_of_coverFromAll hc
    rw [h m hm] at hin
    cases hin

/-! ## Offsets -/

/-- A leaf that ends at or behind an offset and starts before it, or at it if nothing is before. -/
structure Meets (first offset : Nat) (c : Cursor) : Prop where
  token : c.focus.kind.isToken = true
  solid : c.focus.span.start < c.focus.span.stop
  start : c.focus.span.start < offset ∨ c.focus.span.start = offset ∧ offset = first
  stop : offset ≤ c.focus.span.stop

mutual

theorem coverFrom_meets {offset : Nat} (path : List Crumb) {n : Node} (hn : n.Fitted)
    (hstart : n.span.start ≤ offset) (hstop : offset ≤ n.span.stop) :
    (coverFrom (.empty offset) path n).Meets n.span.start offset := by
  match n with
  | ⟨id, kind, span, children⟩ =>
    rw [coverFrom]
    by_cases hnil : children = []
    · subst hnil
      have hk : kind.isToken = true := by
        by_contra hk
        exact hn.children_ne (by simpa using hk) rfl
      exact ⟨hk, hn.solid, (Nat.lt_or_eq_of_le hstart).imp_right fun h => ⟨h, h.symm⟩, hstop⟩
    · obtain ⟨c, hc, hmeets⟩ := coverFromAll_meets hn.children (hn.tiled hnil).1.adjoin hnil
        hstart hstop id kind span path []
      rwa [hc]

theorem coverFromAll_meets {offset start stop : Nat} {ns : List Node} (hns : ∀ n ∈ ns, n.Fitted)
    (hs : Adjoin start stop (ns.map Node.span)) (hne : ns ≠ []) (hstart : start ≤ offset)
    (hstop : offset ≤ stop) (id : Nat) (kind : Kind) (span : Span) (path : List Crumb)
    (before : List Node) :
    ∃ c, coverFromAll (.empty offset) id kind span path before ns = some c ∧
      c.Meets start offset := by
  match ns with
  | [] => exact absurd rfl hne
  | n :: ns =>
    obtain ⟨hn, hns⟩ := List.forall_mem_cons.1 hns
    obtain ⟨rfl, -, hs⟩ := hs
    rw [coverFromAll]
    split_ifs with hin
    · exact ⟨_, rfl, coverFrom_meets _ hn hstart (contains_iff.1 hin).2⟩
    · -- the offset is behind the first node, so there are others, and none of them starts with it
      have hbehind : n.span.stop < offset := by
        by_contra hle
        exact hin (contains_iff.2 ⟨hstart, Nat.le_of_not_lt hle⟩)
      have hne' : ns ≠ [] := by
        rintro rfl
        have hend : n.span.stop = stop := hs
        omega
      obtain ⟨c, hc, hmeets⟩ := coverFromAll_meets hns hs hne' (Nat.le_of_lt hbehind) hstop
        id kind span path (n :: before)
      refine ⟨c, hc, hmeets.token, hmeets.solid, .inl ?_, hmeets.stop⟩
      have := hmeets.start
      omega

end

end Cursor

namespace Tree

open Cursor (Meets)

/-! ## Leaves in their places -/

/-- The leaves of a tree, each in its place, in the order of the text. -/
def leafCursors (t : Tree) : List Cursor := t.cursors.filter fun c => c.focus.kind.isToken

theorem map_focus_leafCursors (t : Tree) : t.leafCursors.map Cursor.focus = t.root.leaves := by
  rw [Node.leaves, ← Cursor.map_focus_descendantsFrom [] t.root, List.filter_map]
  rfl

theorem cover_mem_cursors (t : Tree) (span : Span) : t.cover span ∈ t.cursors :=
  mem_cursors_iff.2 (Cursor.cover_root t span)

variable {t : Tree}

theorem mem_leafCursors {c : Cursor} :
    c ∈ t.leafCursors ↔ c ∈ t.cursors ∧ c.focus.kind.isToken = true := List.mem_filter

theorem adjoin_leafCursors (h : t.root.Fitted) :
    Adjoin t.root.span.start t.root.span.stop (t.leafCursors.map fun c => c.focus.span) := by
  have hleaves := h.adjoin_leaves
  rwa [← map_focus_leafCursors, List.map_map] at hleaves

theorem solid_of_mem_leafCursors (h : t.root.Fitted) {c : Cursor} (hc : c ∈ t.leafCursors) :
    c.focus.span.start < c.focus.span.stop :=
  (h.of_mem_descendants c.focus (focus_mem_descendants (mem_leafCursors.1 hc).1)).1.solid

/-- One leaf only meets an offset. -/
theorem eq_of_meets (h : t.root.Fitted) {offset : Nat} {c d : Cursor} (hc : c ∈ t.leafCursors)
    (hd : d ∈ t.leafCursors) (hmc : c.Meets t.root.span.start offset)
    (hmd : d.Meets t.root.span.start offset) : c = d := by
  have hspans := adjoin_leafCursors h
  have hapart : t.leafCursors.Pairwise fun c d =>
      c.focus.span.stop ≤ d.focus.span.start ∨ d.focus.span.stop ≤ c.focus.span.start :=
    (List.pairwise_map.1 hspans.pairwise).imp .inl
  have : Std.Symm fun c d : Cursor =>
      c.focus.span.stop ≤ d.focus.span.start ∨ d.focus.span.stop ≤ c.focus.span.start :=
    ⟨fun _ _ => Or.symm⟩
  by_contra hne
  have hcd := hapart.forall hc hd hne
  have hfirst := (hspans.mem (List.mem_map_of_mem hc)).1
  have hfirst' := (hspans.mem (List.mem_map_of_mem hd)).1
  obtain ⟨-, hsolid, hstart, hstop⟩ := hmc
  obtain ⟨-, hsolid', hstart', hstop'⟩ := hmd
  omega

/-- What the deepest node around a span is. -/
structure CoversLowest (t : Tree) (span : Span) : Prop where
  /-- A span that is not empty is covered. -/
  around : span.start < span.stop → span.stop ≤ t.text.byteSize →
    (t.cover span).focus.span.contains span = true
  /-- It is covered by the nodes from there up to the root, and by no others. -/
  ancestors : span.start < span.stop → span.stop ≤ t.text.byteSize →
    ∀ c, c ∈ t.cursors ∧ c.focus.span.contains span = true ↔ c ∈ (t.cover span).ancestors
  /-- At the start of a text there is the first leaf. -/
  first : span = .empty 0 → t.text ≠ [] → t.leafCursors.head? = some (t.cover span)
  /-- At another offset there is the leaf that starts before it and does not end before it. -/
  left : ∀ offset, span = .empty offset → 0 < offset → offset ≤ t.text.byteSize →
    ∀ c, (c ∈ t.leafCursors ∧ c.focus.span.start < offset ∧ offset ≤ c.focus.span.stop) ↔
      c = t.cover span
  /-- Beyond the text, and in the empty text, there is the root only. -/
  beyond : t.text.byteSize < span.stop ∨ t.text = [] → t.cover span = t.cursor

end Tree

namespace Node.Rooted

variable {t : Tree} {f : List Skeleton}

theorem fitted {n : Node} {size : Nat} (h : n.Rooted f size) (hsize : 0 < size) : n.Fitted := by
  refine h.tiled.toFitted (by rw [h.kind]; rfl) fun hnil => ?_
  have hadjoin := h.tiled.adjoin
  rw [hnil, h.span] at hadjoin
  exact Nat.ne_of_lt hsize hadjoin

theorem mem_ancestors_cover (h : t.root.Rooted f t.text.byteSize) {span : Span}
    (hspan : span.start < span.stop) (hin : span.stop ≤ t.text.byteSize) (c : Cursor) :
    c ∈ t.cursors ∧ c.focus.span.contains span = true ↔ c ∈ (t.cover span).ancestors := by
  have hfit := h.fitted (by omega)
  have hroot : t.root.span.contains span = true := by
    rw [h.span]
    exact Cursor.contains_iff.2 ⟨Nat.zero_le _, hin⟩
  have hcover : (t.cover span).ancestors =
      (t.cursors.filter (Cursor.isAround span)).reverse ++ [] :=
    Cursor.ancestors_coverFrom hspan [] hfit hroot
  rw [hcover, List.append_nil, List.mem_reverse, List.mem_filter]
  rfl

/-- The deepest node around an offset is the one leaf that meets it. -/
theorem eq_cover_iff (h : t.root.Rooted f t.text.byteSize) (htext : t.text ≠ []) {offset : Nat}
    (hoffset : offset ≤ t.text.byteSize) (c : Cursor) :
    c = t.cover (.empty offset) ↔ c ∈ t.leafCursors ∧ c.Meets 0 offset := by
  have hfit := h.fitted (Text.byteSize_pos htext)
  have hmeets : (t.cover (.empty offset)).Meets t.root.span.start offset := by
    refine Cursor.coverFrom_meets [] hfit ?_ ?_
    · rw [h.span]
      exact Nat.zero_le offset
    · rw [h.span]
      exact hoffset
  have hmem : t.cover (.empty offset) ∈ t.leafCursors :=
    Tree.mem_leafCursors.2 ⟨t.cover_mem_cursors _, hmeets.token⟩
  constructor
  · rintro rfl
    rw [h.span] at hmeets
    exact ⟨hmem, hmeets⟩
  · rintro ⟨hc, hmc⟩
    exact Tree.eq_of_meets hfit hc hmem (by rwa [h.span]) hmeets

theorem cover_eq_cursor (h : t.root.Rooted f t.text.byteSize) {span : Span}
    (hspan : t.text.byteSize < span.stop ∨ t.text = []) : t.cover span = t.cursor := by
  refine Cursor.coverFrom_eq_self (fun m hm => ?_) []
  have hchild := h.tiled.adjoin.mem (List.mem_map_of_mem hm)
  have hsolid := (h.tiled.fitted m hm).solid
  rw [h.span] at hchild
  rw [Bool.eq_false_iff]
  intro hin
  have hspan' := Cursor.contains_iff.1 hin
  simp only at hchild
  rcases hspan with hbeyond | hempty
  · omega
  · rw [hempty, Text.byteSize_nil] at hchild
    omega

theorem head?_leafCursors (h : t.root.Rooted f t.text.byteSize) (htext : t.text ≠ []) :
    t.leafCursors.head? = some (t.cover (.empty 0)) := by
  have hfit := h.fitted (Text.byteSize_pos htext)
  have hspans := Tree.adjoin_leafCursors hfit
  cases hleaves : t.leafCursors with
  | nil =>
    have hnil := congrArg (List.map Cursor.focus) hleaves
    rw [Tree.map_focus_leafCursors] at hnil
    exact absurd hnil hfit.leaves_ne
  | cons c cs =>
    have hc : c ∈ t.leafCursors := hleaves ▸ List.mem_cons_self
    rw [hleaves, h.span] at hspans
    rw [List.head?_cons, (h.eq_cover_iff htext (Nat.zero_le _) c).2 ⟨hc, ?_⟩]
    exact ⟨(Tree.mem_leafCursors.1 hc).2, Tree.solid_of_mem_leafCursors hfit hc,
      .inr ⟨hspans.1, rfl⟩, Nat.zero_le _⟩

theorem coversLowest (h : t.root.Rooted f t.text.byteSize) (span : Span) : t.CoversLowest span := by
  constructor
  · intro hspan hin
    refine ((h.mem_ancestors_cover hspan hin _).2 ?_).2
    rw [Cursor.ancestors_eq_cons]
    exact List.mem_cons_self
  · exact h.mem_ancestors_cover
  · rintro rfl htext
    exact h.head?_leafCursors htext
  · rintro offset rfl hpos hoffset c
    have htext : t.text ≠ [] := by
      rintro hnil
      rw [hnil, Text.byteSize_nil] at hoffset
      omega
    rw [h.eq_cover_iff htext hoffset]
    refine and_congr_right fun hc => ⟨fun ⟨hstart, hstop⟩ => ?_, fun hmeets => ⟨?_, hmeets.stop⟩⟩
    · have hsolid := Tree.solid_of_mem_leafCursors (h.fitted (Text.byteSize_pos htext)) hc
      exact ⟨(Tree.mem_leafCursors.1 hc).2, hsolid, .inl hstart, hstop⟩
    · have := hmeets.start
      omega
  · exact h.cover_eq_cursor

end Node.Rooted

/-- **The deepest node around a span is the lowest of all nodes around it**, in the tree of every
result. Where an empty span meets two leaves it is the left one. -/
theorem cover_lowest {text : Text} {options : Options} {p : Parse}
    (h : Parse.Reachable text options p) (span : Span) : p.tree.CoversLowest span := by
  obtain ⟨f, _, hroot⟩ := h.faithful.tree
  exact hroot.coversLowest span

/-- Between a name and a blank, after an edit that renames the name. -/
theorem cover_lowest_rename : ∃ answer log,
    (parse ['x', ' ', 'y'] {}).reparse ⟨⟨0, 1⟩, ['z']⟩ = .ok (answer, log) ∧
      answer.parse.tree.CoversLowest (.empty 1) ∧
      (answer.parse.tree.cover (.empty 1)).focus.span = ⟨0, 1⟩ := by
  have hr : (parse ['x', ' ', 'y'] {}).reparse ⟨⟨0, 1⟩, ['z']⟩ =
      .ok ((parse ['x', ' ', 'y'] {}).reparseText ⟨⟨0, 1⟩, ['z']⟩ ['z', ' ', 'y']) := rfl
  refine ⟨_, _, hr,
    cover_lowest (.step (@Parse.Reachable.start ['x', ' ', 'y'] {}) ?_ hr) (.empty 1), ?_⟩
  · decide
  · decide +kernel

end LpFormat
