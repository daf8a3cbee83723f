import LpFormat.Proofs.Reparse.History

/-!
# The shape of trees

What holds of the tree of every result, however many edits led to it.

* `Cursor.follow?`, `Tree.at?`: the node at the end of a path of child indices; `Cursor.index`;
* `Tree.Sound`: children tile their parents, tokens are leaves, and no node is reached along two
  paths; `Node.Rooted.sound`;
* `Parse.Reachable`: what edits lead to, `Parse.Reachable.faithful`; **`Parse.Reachable.sound`**.
-/

namespace LpFormat

namespace Cursor

/-- The node reached by going down to children of given indices. -/
def follow? (c : Cursor) (path : List Nat) : Option Cursor := path.foldlM childAt? c

/-- The index of a node among the children of the node above. -/
def index (c : Cursor) : Nat :=
  match c.path with
  | [] => 0
  | k :: _ => k.before.length

theorem follow?_cons (c : Cursor) (i : Nat) (path : List Nat) :
    c.follow? (i :: path) = (c.childAt? i).bind fun d => d.follow? path := rfl

theorem getElem?_placeAll (id : Nat) (kind : Kind) (span : Span) (path : List Crumb)
    (before ns : List Node) (i : Nat) :
    (placeAll id kind span path before ns)[i]? =
      ns[i]?.map fun n =>
        ⟨n, ⟨id, kind, span, (ns.take i).reverse ++ before, ns.drop (i + 1)⟩ :: path⟩ := by
  induction ns generalizing before i with
  | nil => rfl
  | cons n ns ih =>
    cases i with
    | zero => rfl
    | succ i =>
      rw [placeAll, List.getElem?_cons_succ, ih, List.getElem?_cons_succ]
      simp only [List.take_succ_cons, List.reverse_cons, List.append_assoc, List.drop_succ_cons,
        List.singleton_append]

/-- A child in its place: the node above and the index are those it was reached by. -/
theorem childAt?_eq_some {c d : Cursor} {i : Nat} (h : c.childAt? i = some d) :
    c.focus.children[i]? = some d.focus ∧ d.parent? = some c ∧ d.index = i := by
  rw [childAt?, children, getElem?_placeAll] at h
  obtain ⟨n, hn, rfl⟩ := Option.map_eq_some_iff.1 h
  obtain ⟨hi, rfl⟩ := List.getElem?_eq_some_iff.1 hn
  refine ⟨hn, ?_, ?_⟩
  · obtain ⟨⟨id, kind, span, ns⟩, path⟩ := c
    simp only [parent?, Crumb.plug, List.append_nil, List.reverse_reverse]
    rw [← List.drop_eq_getElem_cons hi, List.take_append_drop]
  · simp only [index, List.append_nil, List.length_reverse, List.length_take]
    omega

theorem exists_childAt? {c : Cursor} {i : Nat} {n : Node} (h : c.focus.children[i]? = some n) :
    ∃ d, c.childAt? i = some d ∧ d.focus = n := by
  rw [childAt?, children, getElem?_placeAll, h]
  exact ⟨_, rfl, rfl⟩

theorem childAt?_mem {c d : Cursor} {i : Nat} (h : c.childAt? i = some d) :
    d.focus ∈ c.focus.children := List.mem_of_getElem? (childAt?_eq_some h).1

/-- What children take over from their parents holds all the way down. -/
theorem follow?_of_children {P : Node → Prop} (hP : ∀ n, P n → ∀ m ∈ n.children, P m)
    {c d : Cursor} {path : List Nat} (hc : P c.focus) (h : c.follow? path = some d) : P d.focus := by
  induction path generalizing c with
  | nil =>
    cases h
    exact hc
  | cons i path ih =>
    rw [follow?_cons, Option.bind_eq_some_iff] at h
    obtain ⟨e, he, hd⟩ := h
    exact ih (hP c.focus hc e.focus (childAt?_mem he)) hd

theorem follow?_fitted {c d : Cursor} {path : List Nat} (hc : c.focus.Fitted)
    (h : c.follow? path = some d) : d.focus.Fitted :=
  follow?_of_children (fun _ hn => hn.children) hc h

theorem follow?_mem {c d : Cursor} {path : List Nat} (h : c.follow? path = some d) :
    d.focus ∈ c.focus.descendants := by
  induction path generalizing c with
  | nil =>
    cases h
    rw [Node.descendants_eq]
    exact List.mem_cons_self
  | cons i path ih =>
    rw [follow?_cons, Option.bind_eq_some_iff] at h
    obtain ⟨e, he, hd⟩ := h
    rw [Node.descendants_eq]
    exact List.mem_cons_of_mem _ (List.mem_flatMap.2 ⟨e.focus, childAt?_mem he, ih hd⟩)

/-- Where ids are distinct, a node is not also one of those below its children. -/
theorem follow?_cons_ne {c d : Cursor} {i : Nat} {path : List Nat}
    (hc : (c.focus.descendants.map Node.id).Nodup) (h : c.follow? (i :: path) = some d) :
    c.focus.id ≠ d.focus.id := by
  rw [follow?_cons, Option.bind_eq_some_iff] at h
  obtain ⟨e, he, hd⟩ := h
  rw [Node.descendants_eq, List.map_cons, List.nodup_cons] at hc
  intro heq
  refine hc.1 (heq ▸ List.mem_map_of_mem ?_)
  exact List.mem_flatMap.2 ⟨e.focus, childAt?_mem he, follow?_mem hd⟩

/-- **Where ids are distinct, no node is reached along two paths.** -/
theorem follow?_injective {c d d' : Cursor} {path path' : List Nat}
    (hc : (c.focus.descendants.map Node.id).Nodup) (h : c.follow? path = some d)
    (h' : c.follow? path' = some d') (hid : d.focus.id = d'.focus.id) : path = path' := by
  induction path generalizing c path' with
  | nil =>
    cases path' with
    | nil => rfl
    | cons i path' =>
      cases h
      exact absurd hid (follow?_cons_ne hc h')
  | cons i path ih =>
    cases path' with
    | nil =>
      cases h'
      exact absurd hid.symm (follow?_cons_ne hc h)
    | cons i' path' =>
      rw [follow?_cons, Option.bind_eq_some_iff] at h h'
      obtain ⟨e, he, hd⟩ := h
      obtain ⟨e', he', hd'⟩ := h'
      have hchildren := (childAt?_eq_some he).1
      have hchildren' := (childAt?_eq_some he').1
      rw [Node.descendants_eq, List.map_cons, List.nodup_cons, List.map_flatMap,
        List.nodup_flatMap] at hc
      obtain ⟨_, hnodup, hdisjoint⟩ := hc
      have hmem : d.focus.id ∈ e.focus.descendants.map Node.id := List.mem_map_of_mem (follow?_mem hd)
      have hmem' : d.focus.id ∈ e'.focus.descendants.map Node.id :=
        hid ▸ List.mem_map_of_mem (follow?_mem hd')
      by_cases hii : i = i'
      · subst hii
        rw [he, Option.some.injEq] at he'
        subst he'
        rw [ih (hnodup e.focus (childAt?_mem he)) hd hd']
      · -- two children have no ids in common
        obtain ⟨hi, hie⟩ := List.getElem?_eq_some_iff.1 hchildren
        obtain ⟨hi', hie'⟩ := List.getElem?_eq_some_iff.1 hchildren'
        rw [List.pairwise_iff_getElem] at hdisjoint
        rcases Nat.lt_or_gt_of_ne hii with hlt | hlt
        · have := hdisjoint i i' hi hi' hlt
          rw [hie, hie'] at this
          exact absurd hmem' (this hmem)
        · have := hdisjoint i' i hi' hi hlt
          rw [hie, hie'] at this
          exact absurd hmem (this hmem')

end Cursor

/-- The node of a tree at the end of a path of child indices. -/
def Tree.at? (t : Tree) (path : List Nat) : Option Cursor := t.cursor.follow? path

/-- What holds of every tree. -/
structure Tree.Sound (t : Tree) : Prop where
  /-- The root is a document over the whole text. -/
  root : t.root.kind = .document ∧ t.root.span = ⟨0, t.text.byteSize⟩
  /-- No node is reached along two paths. -/
  unique : ∀ path path' c c', t.at? path = some c → t.at? path' = some c' →
    c.focus.id = c'.focus.id → path = path'
  /-- Children tile their parent. -/
  tiled : ∀ path c, t.at? path = some c → c.focus.children ≠ [] →
    Adjoin c.focus.span.start c.focus.span.stop (c.focus.children.map Node.span)
  /-- Tokens are not empty and have no children. -/
  token : ∀ path c, t.at? path = some c → c.focus.kind.isToken = true →
    c.focus.children = [] ∧ c.focus.span.start < c.focus.span.stop
  /-- Nodes have children, but for the root of an empty text. -/
  node : ∀ path c, t.at? path = some c → c.focus.kind.isToken = false →
    c.focus.children ≠ [] ∨ path = [] ∧ t.text = []

theorem Node.Rooted.sound {t : Tree} {f : List Skeleton} (h : t.root.Rooted f t.text.byteSize)
    (hids : (t.root.descendants.map Node.id).Nodup) : t.Sound := by
  -- a node is the root or fits
  have hnodes : ∀ path c, t.at? path = some c → path = [] ∧ c = t.cursor ∨ c.focus.Fitted := by
    intro path c hc
    cases path with
    | nil =>
      cases hc
      exact .inl ⟨rfl, rfl⟩
    | cons i path =>
      rw [Tree.at?, Cursor.follow?_cons, Option.bind_eq_some_iff] at hc
      obtain ⟨d, hd, hc⟩ := hc
      exact .inr (Cursor.follow?_fitted (h.tiled.fitted d.focus (Cursor.childAt?_mem hd)) hc)
  refine ⟨⟨h.kind, h.span⟩, ?_, ?_, ?_, ?_⟩
  · intro path path' c c' hc hc' hid
    exact Cursor.follow?_injective (c := t.cursor) hids hc hc' hid
  · intro path c hc hne
    rcases hnodes path c hc with ⟨_, rfl⟩ | hfit
    · exact h.tiled.adjoin
    · exact (hfit.tiled hne).1.adjoin
  · intro path c hc hk
    rcases hnodes path c hc with ⟨_, rfl⟩ | hfit
    · rw [show t.cursor.focus.kind = .document from h.kind] at hk
      cases hk
    · exact ⟨hfit.children_eq_nil hk, hfit.solid⟩
  · intro path c hc hk
    rcases hnodes path c hc with ⟨rfl, rfl⟩ | hfit
    · by_cases hempty : t.root.children = []
      · refine .inr ⟨rfl, ?_⟩
        have hadjoin := h.tiled.adjoin
        rw [hempty, h.span] at hadjoin
        exact Text.byteSize_eq_zero.1 hadjoin.symm
      · exact .inl hempty
    · exact .inl (hfit.children_ne hk)

/-- The results that edits lead to from parsing a text. -/
inductive Parse.Reachable (text : Text) (options : Options) : Parse → Prop where
  | start : Reachable text options (parse text options)
  | step {p : Parse} {e : Edit} {answer : Reparse} {log : List LogEntry}
      (h : Reachable text options p) (he : e.span.start ≤ e.span.stop)
      (hr : p.reparse e = .ok (answer, log)) : Reachable text options answer.parse

theorem Parse.Reachable.faithful {text : Text} {options : Options} {p : Parse}
    (h : Reachable text options p) : p.Faithful := by
  induction h with
  | start => exact parse_faithful text options
  | step _ he hr ih => exact (reparse_eq_ok ih he hr).1

/-- **The tree of every result is sound**, whichever way each edit before it was answered. -/
theorem Parse.Reachable.sound {text : Text} {options : Options} {p : Parse}
    (h : Reachable text options p) : p.tree.Sound := by
  obtain ⟨f, _, hroot⟩ := h.faithful.tree
  exact hroot.sound h.faithful.ids

end LpFormat
