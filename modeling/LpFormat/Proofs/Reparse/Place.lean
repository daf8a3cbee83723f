import LpFormat.Proofs.Parse.Arrange
import LpFormat.Proofs.Parse.Leaves
import LpFormat.Proofs.Reparse.Prefix
import LpFormat.Proofs.Tree.Splice

/-!
# The place of an edit

What every result of parsing keeps through edits, and the tokens around the node that an edit falls
into.

* **`Parse.Faithful`**: a tree for the events of the document, with the arranged diagnostics and
  distinct ids; `parse_faithful`, `Parse.Faithful.shapes_eq`;
* `Cursor.Site`: the tokens before, inside and after a node, `Cursor.Placed.exists_site`;
* `Cursor.Site.edited`: the text around an edit inside a node;
* `Tree.cover_placed`, `Cursor.placed_of_mem_ancestors`: nodes around an edit;
  `Parse.Faithful.exists_edited`: the old and the new text there;
* `Parse.Spliced`: a result that differs from another in the place of one node.
-/

namespace LpFormat

/-! ## What edits keep -/

/-- A result that is, but for ids, what parsing its text anew gives. -/
structure Parse.Faithful (p : Parse) : Prop where
  tree : ∃ f, (Rule.document (.start p.text)).output.events =
      .start .document :: (Skeleton.eventsAll f ++ [.finish]) ∧
    p.tree.root.Rooted f p.text.byteSize
  diagnostics : p.diagnostics =
    Diagnostic.arrange p.options.maxErrors (Rule.document (.start p.text)).output.diagnostics
  ids : (p.tree.root.descendants.map Node.id).Nodup
  allocated : ∀ id ∈ p.tree.root.descendants.map Node.id, id < p.tree.allocated

theorem parse_faithful (text : Text) (options : Options) : (parse text options).Faithful := by
  obtain ⟨f, ns, he, _, hns, htree⟩ := parse_built text options
  have hids : (parse text options).tree.root.descendants.map Node.id =
      List.range' 0 (1 + (ns.map Node.size).sum) := by
    rw [htree, Node.descendants_eq, List.map_cons, hns.numbered, Nat.add_comm, List.range'_succ]
  have htext : (parse text options).text = text := by
    rw [Parse.text, htree]
  refine ⟨⟨f, htext ▸ he, ?_⟩, ?_, ?_, ?_⟩
  · rw [htext, htree]
    exact ⟨rfl, rfl, hns.skeletons, hns.spans, hns.fitted⟩
  · rw [htext]
    rfl
  · rw [hids]
    exact List.nodup_range'
  · rw [hids, htree]
    intro id hid
    have := List.mem_range'_1.1 hid
    simp only
    omega

/-- The events of a tree decide kinds, spans and numbers of children. -/
theorem Node.Rooted.shapes_eq {m n : Node} {f : List Skeleton} {size : Nat} (hm : m.Rooted f size)
    (hn : n.Rooted f size) : m.shapes = n.shapes := by
  have hchildren : m.children.map Node.shapes = n.children.map Node.shapes := by
    refine map_eq_of_skeletons (hm.skeletons.trans hn.skeletons.symm) fun a ha b hb hab => ?_
    exact (hm.tiled.fitted a ha).shapes_eq (hn.tiled.fitted b hb) hab
  have hlen : m.children.length = n.children.length := by
    have := congrArg List.length hchildren
    rwa [List.length_map, List.length_map] at this
  rw [Node.shapes_eq, Node.shapes_eq, hm.kind, hn.kind, hm.span, hn.span, hlen, List.flatMap_def,
    List.flatMap_def, hchildren]

theorem Parse.Faithful.shapes_eq {p q : Parse} (hp : p.Faithful) (hq : q.Faithful)
    (htext : p.text = q.text) : p.tree.shapes = q.tree.shapes := by
  obtain ⟨f, he, hf⟩ := hp.tree
  obtain ⟨g, he', hg⟩ := hq.tree
  rw [htext, he', List.cons.injEq, List.append_cancel_right_eq] at he
  have hfg := Skeleton.eventsAll_injective he.2
  subst hfg
  rw [htext] at hf
  exact hf.shapes_eq hg

/-- If the cap is not reached, no diagnostic of the document was cut off. -/
theorem Parse.Faithful.diagnostics_eq_sorted {p : Parse} (hp : p.Faithful)
    (hcap : p.capReached = false) :
    p.diagnostics = Diagnostic.sorted (Rule.document (.start p.text)).output.diagnostics := by
  rw [hp.diagnostics]
  refine Diagnostic.arrange_eq_sorted ?_
  rw [← hp.diagnostics]
  exact hcap

theorem Rule.document_span_le (text : Text) :
    ∀ d ∈ (document (.start text)).output.diagnostics, d.span.start ≤ d.span.stop := by
  intro d hd
  obtain ⟨t, ht, hdt⟩ := document_located text d hd
  refine hdt.span_le ((Input.proper_ofText text 0 0 .statementStart).solid t ?_)
  rwa [Input.tokens_ofText_zero]

/-- The events of a document show the tokens of its text. -/
theorem Rule.document_shown {text : Text} {f : List Skeleton}
    (h : (document (.start text)).output.events =
      .start .document :: (Skeleton.eventsAll f ++ [.finish])) :
    List.Forall₂ Trace.Leaf (lex text) (leavesOf (Skeleton.eventsAll f)) := by
  obtain ⟨g, hg, _, hshown⟩ := document_forest text
  rw [h, List.cons.injEq, List.append_cancel_right_eq] at hg
  rwa [hg.2]

/-! ## Tokens around a node -/

/-- The tokens before, inside and after a node, and the places between them. -/
structure Cursor.Site (c : Cursor) (text : Text) (A M B : List Token) (r₁ r₂ : Reader)
    (m₁ m₂ : Mode) : Prop where
  before : Reader.Reads (.ofText text) .statementStart A r₁ m₁
  inside : Reader.Reads r₁ m₁ M r₂ m₂
  after : (r₂.tokens m₂).tokens = B
  start : r₁.position.offset = c.focus.span.start
  stop : r₂.position.offset = c.focus.span.stop
  shownBefore : List.Forall₂ Trace.Leaf A (leavesOf (Crumb.eventsBefore c.path))
  shown : List.Forall₂ Trace.Leaf M (leavesOf c.focus.skeleton.events)
  shownAfter : List.Forall₂ Trace.Leaf B (leavesOf (Crumb.eventsAfter c.path))

theorem Cursor.Placed.exists_site {c : Cursor} {f : List Skeleton} {text : Text}
    (h : c.Placed f text.byteSize)
    (hf : List.Forall₂ Trace.Leaf (lex text) (leavesOf (Skeleton.eventsAll f))) :
    ∃ A M B r₁ r₂ m₁ m₂, c.Site text A M B r₁ r₂ m₁ m₂ := by
  rw [← leavesOf_enclosed .document, h.events_eq, leavesOf_append, leavesOf_append,
    List.append_assoc] at hf
  obtain ⟨A, X, hAX, hA, hX⟩ := Parallel.forall₂_append_left hf.flip
  obtain ⟨M, B, rfl, hM, hB⟩ := Parallel.forall₂_append_left hX
  obtain ⟨r₁, m₁, h₁, hX'⟩ := Reader.exists_reads hAX
  obtain ⟨r₂, m₂, h₂, hB'⟩ := Reader.exists_reads hX'
  have hbefore := h.adjoin.1
  rw [leafSpans_of_forall₂ hA.flip] at hbefore
  have hstart : r₁.position.offset = c.focus.span.start := h₁.adjoin.stop_unique hbefore
  have hinside := h.fitted.1.adjoin_leaves
  have hleaves : c.focus.leaves.map Node.span = M.map Token.span := by
    rw [← leafSpans_of_forall₂ hM.flip, leafSpans, h.fitted.1.leavesOf_eq, List.map_map]
    rfl
  rw [hleaves, ← hstart] at hinside
  exact ⟨A, M, B, r₁, r₂, m₁, m₂, h₁, h₂, hB', hstart, h₂.adjoin.stop_unique hinside, hA.flip,
    hM.flip, hB.flip⟩

theorem Node.holds_of_leaf {n : Node} {t : Token} (ht : t.kind.isLexed = true)
    (h : Trace.Leaf t (n.kind, n.span)) : n.Holds t :=
  ⟨(h.shown.lexedAs ht).1, h.span⟩

namespace Cursor.Site

variable {c : Cursor} {text : Text} {A M B : List Token} {r₁ r₂ : Reader} {m₁ m₂ : Mode}
  (h : c.Site text A M B r₁ r₂ m₁ m₂)

include h

theorem rest₁ : r₁.rest = Reader.Reads.textOf M ++ r₂.rest := h.inside.rest_eq

theorem text_eq : text = Reader.Reads.textOf A ++ Reader.Reads.textOf M ++ r₂.rest := by
  rw [List.append_assoc, ← h.rest₁]
  exact h.before.rest_eq

theorem byteSize_before : (Reader.Reads.textOf A).byteSize = c.focus.span.start := by
  rw [← h.start, h.before.offset_eq]
  exact (Nat.zero_add _).symm

theorem byteSize_inside :
    c.focus.span.start + (Reader.Reads.textOf M).byteSize = c.focus.span.stop := by
  rw [← h.stop, h.inside.offset_eq, h.start]

theorem tokens_eq : lex text = A ++ (M ++ B) := by
  rw [← h.after, ← h.inside.tokens_eq.1]
  exact h.before.tokens_eq.1

theorem stop_le_start : ∀ t ∈ A, t.span.start < t.span.stop ∧ t.span.stop ≤ c.focus.span.start := by
  intro t ht
  exact ⟨h.before.solid t ht, h.start ▸ (h.before.adjoin.mem (List.mem_map_of_mem ht)).2.2⟩

theorem stop_le_of_mem_after : ∀ t ∈ B, c.focus.span.stop ≤ t.span.start ∧
    t.span.start < t.span.stop := by
  intro t ht
  obtain ⟨r', mode', hB, _⟩ := r₂.reads_tokens m₂
  rw [h.after] at hB
  exact ⟨h.stop ▸ (hB.adjoin.mem (List.mem_map_of_mem ht)).1, hB.solid t ht⟩

theorem holdsBefore (hc : ∀ k ∈ c.path, OnPath k) :
    List.Forall₂ Node.Holds c.leavesBefore A.reverse := by
  have hA := h.shownBefore
  rw [leavesBefore_eq hc c.focus, List.forall₂_map_right_iff] at hA
  have hlexed := (List.forall₂_and_left _ _).2 ⟨h.before.kind_isLexed, hA⟩
  rw [← List.forall₂_reverse_iff, List.reverse_reverse]
  exact (hlexed.imp fun t n ht => Node.holds_of_leaf ht.1 ht.2).flip

/-- An edit inside a node leaves the text before it and after it as it is. -/
theorem edited {e : Edit} {a m z : Text} (hcut : e.Cuts text a m z)
    (hin : c.focus.span.contains e.span = true) :
    ∃ mid, a ++ e.insert ++ z = Reader.Reads.textOf A ++ (mid ++ r₂.rest) ∧
      (mid.byteSize : Int) = (Reader.Reads.textOf M).byteSize + e.delta := by
  obtain ⟨hstart, hstop⟩ := contains_iff.1 hin
  have hA := h.byteSize_before
  have hM := h.byteSize_inside
  have htext := h.text_eq
  rw [hcut.start] at hstart
  rw [hcut.stop] at hstop
  rw [hcut.eq, List.append_assoc, List.append_assoc] at htext
  obtain ⟨b, rfl, hb⟩ := Text.exists_middle htext.symm (by omega)
  rw [← List.append_assoc] at hb
  obtain ⟨d, hd, rfl⟩ := Text.exists_middle hb.symm (by simp at *; omega)
  refine ⟨b ++ e.insert ++ d, by simp, ?_⟩
  rw [hcut.delta_eq, hd]
  simp only [Text.byteSize_append]
  omega

end Cursor.Site

/-! ## Nodes around an edit -/

namespace Cursor

theorem Site.byteSize_eq {c : Cursor} {text new mid : Text} {A M B : List Token} {r₁ r₂ : Reader}
    {m₁ m₂ : Mode} {δ : Int} (h : c.Site text A M B r₁ r₂ m₁ m₂)
    (hnew : new = Reader.Reads.textOf A ++ (mid ++ r₂.rest))
    (hmid : (mid.byteSize : Int) = (Reader.Reads.textOf M).byteSize + δ) :
    (new.byteSize : Int) = text.byteSize + δ := by
  rw [hnew, h.text_eq]
  simp only [Text.byteSize_append]
  omega

theorem placed_of_root {c : Cursor} {n : Node} {f : List Skeleton} {size : Nat}
    (hn : n.Rooted f size) (hroot : c.root = n) (hp : c.path ≠ []) : c.Placed f size :=
  ⟨hroot ▸ hn, hp⟩

theorem cover_root (t : Tree) (span : Span) : (t.cover span).root = t.root :=
  (coverFrom_root span [] t.root).1

theorem ancestor_root {t : Tree} {span : Span} {c : Cursor} (hc : c ∈ (t.cover span).ancestors) :
    c.root = t.root := (ancestorsFrom_root hc).1.trans (cover_root t span)

/-- The deepest node around a span: the root, or a node below it that lies around the span. -/
theorem cover_placed {t : Tree} {f : List Skeleton} {size : Nat} (ht : t.root.Rooted f size)
    (span : Span) (hp : (t.cover span).path ≠ []) :
    (t.cover span).Placed f size ∧ (t.cover span).focus.span.contains span = true := by
  refine ⟨placed_of_root ht (cover_root t span) hp, ?_⟩
  refine (coverFrom_root span [] t.root).2.resolve_left fun h => hp ?_
  rw [Tree.cover, h]

/-- A node above the deepest node around a span. -/
theorem ancestor_placed {t : Tree} {f : List Skeleton} {size : Nat} (ht : t.root.Rooted f size)
    {span : Span} {c : Cursor} (hc : c ∈ (t.cover span).ancestors) (hp : c.path ≠ []) :
    c.Placed f size ∧ c.focus.span.contains span = true := by
  have hpath : (t.cover span).path ≠ [] := by
    intro hnil
    rw [ancestors, hnil] at hc
    obtain rfl := List.mem_singleton.1 hc
    exact hp rfl
  have hin := (cover_placed ht span hpath).2
  have hk : (t.cover span).root.kind.isNode = true := by
    rw [cover_root, ht.kind]
    rfl
  have hout := (ancestorsFrom_root hc).2 (cover_root t span ▸ ht.tiled) hk
  refine ⟨placed_of_root ht (ancestor_root hc) hp, ?_⟩
  rw [contains_iff] at *
  omega

/-- The ids of a tree with another node in one place. -/
theorem splice_ids (c : Cursor) (n : Node) (δ : Int) :
    (c.splice n δ).descendants.map Node.id =
      Crumb.idsBefore c.path ++ n.descendants.map Node.id ++ Crumb.idsAfter c.path := by
  rw [← Crumb.idsBefore_grow δ c.path, ← Crumb.idsAfter_grow δ c.path]
  exact root_ids (c.path.map (Crumb.grow δ)) n

/-- A node with the id and the children of the old one changes no ids. -/
theorem splice_ids_same {c : Cursor} {n : Node} (hid : n.id = c.focus.id)
    (hc : n.children = c.focus.children) (δ : Int) :
    (c.splice n δ).descendants.map Node.id = c.root.descendants.map Node.id := by
  have hroot := root_ids c.path c.focus
  rw [splice_ids, Node.descendants_eq, List.map_cons, hid, hc, ← List.map_cons,
    ← Node.descendants_eq]
  exact hroot.symm

section Fresh

variable {c : Cursor} {n : Node} {limit : Nat}

/-- A node whose ids begin at a limit keeps all ids below the next limit. -/
theorem splice_ids_lt (hold : ∀ id ∈ c.root.descendants.map Node.id, id < limit)
    (hn : n.descendants.map Node.id = List.range' limit n.size) (δ : Int) :
    ∀ id ∈ (c.splice n δ).descendants.map Node.id, id < limit + n.size := by
  have hroot := root_ids c.path c.focus
  intro id hid
  rw [splice_ids, hn, List.mem_append, List.mem_append, List.mem_range'_1] at hid
  rcases hid with (hid | hid) | hid
  · exact Nat.lt_add_right _ (hold id (hroot ▸ List.mem_append_left _ (List.mem_append_left _ hid)))
  · exact hid.2
  · exact Nat.lt_add_right _ (hold id (hroot ▸ List.mem_append_right _ hid))

/-- A node whose ids come after all ids of the tree keeps the ids distinct. -/
theorem nodup_splice_ids (hold : ∀ id ∈ c.root.descendants.map Node.id, id < limit)
    (hnodup : (c.root.descendants.map Node.id).Nodup)
    (hn : n.descendants.map Node.id = List.range' limit n.size) (δ : Int) :
    ((c.splice n δ).descendants.map Node.id).Nodup := by
  have hroot := root_ids c.path c.focus
  rw [hroot, List.nodup_append, List.nodup_append] at hnodup
  obtain ⟨⟨hbefore, _, _⟩, hafter, hdisjoint⟩ := hnodup
  have hfresh : ∀ id ∈ List.range' limit n.size, limit ≤ id :=
    fun id hid => (List.mem_range'_1.1 hid).1
  rw [splice_ids, hn, List.nodup_append, List.nodup_append]
  refine ⟨⟨hbefore, List.nodup_range', fun x hx y hy hxy => ?_⟩, hafter, fun x hx y hy => ?_⟩
  · have h₁ := hold x (hroot ▸ List.mem_append_left _ (List.mem_append_left _ hx))
    have h₂ := hfresh y hy
    omega
  · rcases List.mem_append.1 hx with hx | hx
    · exact hdisjoint x (List.mem_append_left _ hx) y hy
    · have h₁ := hold y (hroot ▸ List.mem_append_right _ hy)
      have h₂ := hfresh x hx
      omega

end Fresh

end Cursor

namespace Parse

/-- The tokens around a node that an edit falls into, and the new text there. -/
theorem Faithful.exists_edited {p : Parse} {e : Edit} {a m z : Text} {c : Cursor} (hp : p.Faithful)
    (hcut : e.Cuts p.text a m z) (hroot : c.root = p.tree.root) (hpath : c.path ≠ [])
    (hin : c.focus.span.contains e.span = true) :
    ∃ f A M B r₁ r₂ m₁ m₂ mid, (Rule.document (.start p.text)).output.events =
        .start .document :: (Skeleton.eventsAll f ++ [.finish]) ∧
      c.Placed f p.text.byteSize ∧ c.Site p.text A M B r₁ r₂ m₁ m₂ ∧
      a ++ e.insert ++ z = Reader.Reads.textOf A ++ (mid ++ r₂.rest) ∧
      (mid.byteSize : Int) = (Reader.Reads.textOf M).byteSize + e.delta := by
  obtain ⟨f, he, hf⟩ := hp.tree
  have hplaced := Cursor.placed_of_root hf hroot hpath
  obtain ⟨A, M, B, r₁, r₂, m₁, m₂, hs⟩ := hplaced.exists_site (Rule.document_shown he)
  obtain ⟨mid, hnew, hmid⟩ := hs.edited hcut hin
  exact ⟨f, A, M, B, r₁, r₂, m₁, m₂, mid, he, hplaced, hs, hnew, hmid⟩

/-- A result whose tree is the old one with another node in the place of one around an edit. -/
structure Spliced (p : Parse) (e : Edit) (c : Cursor) (n : Node) (q : Parse) : Prop where
  root : c.root = p.tree.root
  below : c.path ≠ []
  around : c.focus.span.contains e.span = true
  fitted : n.Fitted
  start : n.span.start = c.focus.span.start
  stop : (n.span.stop : Int) = c.focus.span.stop + e.delta
  tree : q.tree.root = c.splice n e.delta

end Parse

end LpFormat
