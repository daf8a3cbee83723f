import LpFormat.Model.Document
import LpFormat.Proofs.Parse.Nodes
import LpFormat.Proofs.Tree.Cursors

/-!
# Entries of special ordered sets

The sets of a section share its entries among them: those on the line of a set and those on the
lines after it up to the next set.

* `Node.ownEntries`: the entries that a line of a section brings in;
* `Cursor.sosEntries_children`: the entries of all sets of a section, line by line;
* `Kind.isPlain`, `Node.Fitted.filter_entry`: entries stand in sections and sets only;
* **`sosEntries_parse`**: the entries of the sets of a section are those from its first set on.
-/

namespace LpFormat

open Computability

/-- The entries of a set, or an entry on its own. -/
def Node.ownEntries (n : Node) : List Node :=
  if n.kind = .sosSet then n.children.filter (·.kind == .sosEntry)
  else [n].filter (·.kind == .sosEntry)

theorem Node.flatMap_ownEntries {ns : List Node} (h : ∀ n ∈ ns, n.kind ≠ .sosSet) :
    ns.flatMap ownEntries = ns.filter (·.kind == .sosEntry) := by
  have hown : ∀ n ∈ ns, n.ownEntries = [n].filter (·.kind == .sosEntry) :=
    fun n hn => if_neg (h n hn)
  rw [List.flatMap_congr hown, ← List.filter_flatMap, List.flatMap_singleton']

/-- The entries of all sets among some children, each with those up to the next set. -/
theorem Cursor.sosEntries_placeAll (id : Nat) (kind : Kind) (span : Span) (path : List Crumb)
    (before ns : List Node) :
    ((placeAll id kind span path before ns).filter (·.focus.kind == .sosSet)).flatMap sosEntries =
      (ns.dropWhile (·.kind != .sosSet)).flatMap Node.ownEntries := by
  induction ns generalizing before with
  | nil => rfl
  | cons n ns ih =>
    rw [placeAll]
    by_cases hn : n.kind = .sosSet
    · rw [List.filter_cons_of_pos (by simp [hn]), List.dropWhile_cons_of_neg (by simp [hn]),
        List.flatMap_cons, ih, List.flatMap_cons, sosEntries, Node.ownEntries, if_pos hn]
      have hline : ∀ m ∈ ns.takeWhile (·.kind != .sosSet), m.kind ≠ .sosSet :=
        fun m hm => by simpa using List.mem_takeWhile_imp hm
      simp only [following, List.append_assoc]
      rw [← Node.flatMap_ownEntries hline, ← List.flatMap_append, List.takeWhile_append_dropWhile]
    · rw [List.filter_cons_of_neg (by simp [hn]), List.dropWhile_cons_of_pos (by simp [hn]), ih]

/-! ## Where entries stand -/

/-- Kinds of nodes other than documents, sections, and the sets and entries in them. -/
def Kind.isPlain (k : Kind) : Bool :=
  k != .document && k != .sectionNode && k != .sosSet && k != .sosEntry

theorem Kind.isPlain_of_isToken : ∀ {k : Kind}, k.isToken = true → k.isPlain = true := by decide

theorem Kind.isPlain_of_isTrivia {k : Kind} (h : k.isTrivia = true) : k.isPlain = true :=
  isPlain_of_isToken (isToken_of_isTrivia h)

namespace Schema

/-- Outside of sections and sets there are plain kinds only. -/
theorem children_le_plain {k : Kind} (hk : k.isPlain = true ∨ k = .sosEntry) :
    children k ≤ every fun k => k.isPlain = true := by
  have hc : ∀ k : Kind, k.isComparison = true → k.isPlain = true :=
    fun _ hk => Kind.isPlain_of_isToken (Kind.isToken_of_isComparison hk)
  have hone : ∀ k : Kind, k.isPlain = true → one k ≤ every fun k => k.isPlain = true :=
    fun k hk => one_le_every hk
  cases k with
  | document | sectionNode | sosSet => exact absurd hk (by decide)
  | errorNode =>
    exact fun w hw a ha => Kind.isPlain_of_isToken (hw a ha)
  | endNode | label | objective | constraint | bound | declaration | sosEntry | expression | term
  | constant =>
    delta children skipped comparison name
    dsimp only
    repeat' with_reducible first
      | apply mul_le_every
      | apply optional_le_every
      | apply kstar_le_every
      | apply add_le
    all_goals first | exact hone _ rfl | exact comparisons_le_every hc
  | _ => exact bot_le

theorem sosSet_le_every :
    children .sosSet ≤ every fun k => k.isPlain = true ∨ k = .sosEntry := by
  have hone : ∀ k : Kind, k.isPlain = true ∨ k = .sosEntry →
      one k ≤ every fun k => k.isPlain = true ∨ k = .sosEntry := fun k hk => one_le_every hk
  exact mul_le_every (mul_le_every (mul_le_every (mul_le_every
    (optional_le_every (hone _ (.inl rfl))) (hone _ (.inl rfl))) (hone _ (.inl rfl)))
    (kstar_le_every (hone _ (.inr rfl)))) (optional_le_every (hone _ (.inl rfl)))

theorem sectionNode_le_every : children .sectionNode ≤
    every fun k => (k.isPlain = true ∨ k = .sosEntry) ∨ k = .sosSet := by
  have hone : ∀ k : Kind, (k.isPlain = true ∨ k = .sosEntry) ∨ k = .sosSet →
      one k ≤ every fun k => (k.isPlain = true ∨ k = .sosEntry) ∨ k = .sosSet :=
    fun k hk => one_le_every hk
  delta children lines
  dsimp only
  repeat' with_reducible first
    | apply mul_le_every
    | apply kstar_le_every
    | apply add_le
  all_goals exact hone _ (by decide)

end Schema

namespace Node

/-- Below a plain node, and below an entry, there are no entries. -/
theorem Fitted.plain_below {n : Node} (h : n.Fitted)
    (hk : n.kind.isPlain = true ∨ n.kind = .sosEntry) (hconforms : ∀ m ∈ n.descendants, m.Conforms) :
    ∀ m ∈ n.children.flatMap descendants, m.kind.isPlain = true := by
  induction h with
  | token _ _ => exact List.forall_mem_nil _
  | @node id kind span children hnode hne hs hc ih =>
    intro m hm
    obtain ⟨c, hcm, hm⟩ := List.mem_flatMap.1 hm
    have hcc : ∀ x ∈ c.descendants, x.Conforms :=
      fun x hx => hconforms x (mem_descendants_child (n := ⟨id, kind, span, children⟩) hcm hx)
    have hck : c.kind.isPlain = true := by
      exact (hconforms _ (mem_descendants_self _)).child hnode (Schema.children_le_plain hk)
        (fun _ => Kind.isPlain_of_isTrivia) hcm
    rw [descendants_eq] at hm
    rcases List.mem_cons.1 hm with rfl | hm
    · exact hck
    · exact ih c hcm (.inl hck) hcc m hm

theorem Fitted.filter_entry_plain {n : Node} (h : n.Fitted)
    (hk : n.kind.isPlain = true ∨ n.kind = .sosEntry)
    (hconforms : ∀ m ∈ n.descendants, m.Conforms) :
    n.descendants.filter (·.kind == .sosEntry) = [n].filter (·.kind == .sosEntry) := by
  refine filter_descendants_self fun m hm => ?_
  rw [beq_eq_false_iff_ne]
  intro hentry
  have hplain := h.plain_below hk hconforms m hm
  rw [hentry] at hplain
  cases hplain

/-- The entries below a line of a section are its own. -/
theorem Fitted.filter_entry {n : Node} (h : n.Fitted)
    (hk : (n.kind.isPlain = true ∨ n.kind = .sosEntry) ∨ n.kind = .sosSet)
    (hconforms : ∀ m ∈ n.descendants, m.Conforms) :
    n.descendants.filter (·.kind == .sosEntry) = n.ownEntries := by
  rcases hk with hk | hk
  · have hset : n.kind ≠ .sosSet := by
      intro hset
      rw [hset] at hk
      revert hk
      decide
    rw [ownEntries, if_neg hset, h.filter_entry_plain hk hconforms]
  · rw [ownEntries, if_pos hk]
    refine filter_descendants_children (by simp [hk]) fun c hc => ?_
    refine (h.children c hc).filter_entry_plain ?_ fun m hm =>
      hconforms m (mem_descendants_child hc hm)
    exact (hconforms n n.mem_descendants_self).child
      (p := fun k => k.isPlain = true ∨ k = .sosEntry) (hk ▸ rfl) (hk ▸ Schema.sosSet_le_every)
      (fun _ h => .inl (Kind.isPlain_of_isTrivia h)) hc

/-- The entries below a section are those of its lines. -/
theorem Fitted.filter_entry_section {n : Node} (h : n.Fitted) (hk : n.kind = .sectionNode)
    (hconforms : ∀ m ∈ n.descendants, m.Conforms) :
    n.descendants.filter (·.kind == .sosEntry) = n.children.flatMap ownEntries := by
  have hline : ∀ c ∈ n.children, c.descendants.filter (·.kind == .sosEntry) = c.ownEntries := by
    intro c hc
    refine (h.children c hc).filter_entry ?_ fun m hm => hconforms m (mem_descendants_child hc hm)
    exact (hconforms n n.mem_descendants_self).child
      (p := fun k => (k.isPlain = true ∨ k = .sosEntry) ∨ k = .sosSet) (hk ▸ rfl)
      (hk ▸ Schema.sectionNode_le_every) (fun _ h => .inl (.inl (Kind.isPlain_of_isTrivia h))) hc
  rw [descendants_eq, List.filter_cons_of_neg (by simp [hk]), List.filter_flatMap,
    List.flatMap_congr hline]

/-! ## The order of entries -/

/-- The entries of a line lie within it. -/
theorem Fitted.ownEntries_within {n : Node} (h : n.Fitted) :
    ∀ m ∈ n.ownEntries, n.span.start ≤ m.span.start ∧ m.span.stop ≤ n.span.stop := by
  intro m hm
  rw [ownEntries] at hm
  split_ifs at hm
  · have hmem := (List.mem_filter.1 hm).1
    have hadjoin := (h.tiled (List.ne_nil_of_mem hmem)).1.adjoin
    have := hadjoin.mem (List.mem_map_of_mem hmem)
    omega
  · rw [List.mem_singleton.1 (List.mem_filter.1 hm).1]
    exact ⟨Nat.le_refl _, Nat.le_refl _⟩

theorem ownEntries_solid {n : Node} (h : n.Fitted) : ∀ m ∈ n.ownEntries,
    m.span.start < m.span.stop := by
  intro m hm
  rw [ownEntries] at hm
  split_ifs at hm
  · exact (h.children m (List.mem_filter.1 hm).1).solid
  · rw [List.mem_singleton.1 (List.mem_filter.1 hm).1]
    exact h.solid

end Node

/-- Entries of later lines start later. -/
theorem Node.pairwise_ownEntries {ns : List Node} (hfit : ∀ n ∈ ns, n.Fitted)
    (h : ns.Pairwise fun m n => m.span.stop ≤ n.span.start) :
    (ns.flatMap ownEntries).Pairwise fun m n => m.span.start < n.span.start := by
  rw [List.pairwise_flatMap]
  refine ⟨fun n hn => ?_, h.imp_of_mem fun {m n} hm hn hle x hx y hy => ?_⟩
  · rw [ownEntries]
    split_ifs with hk
    · have hne := (hfit n hn).children_ne (hk ▸ rfl)
      have hspans := List.pairwise_map.1 ((hfit n hn).tiled hne).1.adjoin.pairwise
      refine (hspans.imp_of_mem ?_).filter _
      intro x y hx _ hle
      have := ((hfit n hn).children x hx).solid
      omega
    · exact (List.pairwise_singleton _ _).filter _
  · have h₁ := (hfit m hm).ownEntries_within x hx
    have h₂ := (hfit n hn).ownEntries_within y hy
    have h₃ := ownEntries_solid (hfit m hm) x hx
    omega

/-- From the first set on, the lines of a section are those that start no earlier. -/
theorem Node.filter_ownEntries {ns : List Node} {a b : Nat} (hfit : ∀ n ∈ ns, n.Fitted)
    (h : Adjoin a b (ns.map Node.span)) {first : Node}
    (hfirst : ns.find? (·.kind == .sosSet) = some first) :
    (ns.flatMap ownEntries).filter (fun m => decide (first.span.start ≤ m.span.start)) =
      (ns.dropWhile (·.kind != .sosSet)).flatMap ownEntries := by
  obtain ⟨hset, pre, post, rfl, hpre⟩ := List.find?_eq_some_iff_append.1 hfirst
  have hdrop : (pre ++ first :: post).dropWhile (·.kind != .sosSet) = first :: post := by
    rw [List.dropWhile_append_of_pos fun n hn => by simpa using hpre n hn,
      List.dropWhile_cons_of_neg (by simpa using hset)]
  rw [List.map_append, Adjoin.append_iff] at h
  obtain ⟨middle, hbefore, hstart, -, hafter⟩ := h
  have hearly : ∀ m ∈ pre.flatMap ownEntries, ¬ first.span.start ≤ m.span.start := by
    intro m hm
    obtain ⟨n, hn, hm⟩ := List.mem_flatMap.1 hm
    have hfitted := hfit n (List.mem_append_left _ hn)
    have := hbefore.mem (List.mem_map_of_mem hn)
    have := hfitted.ownEntries_within m hm
    have := ownEntries_solid hfitted m hm
    omega
  have hlate : ∀ m ∈ (first :: post).flatMap ownEntries, first.span.start ≤ m.span.start := by
    intro m hm
    obtain ⟨n, hn, hm⟩ := List.mem_flatMap.1 hm
    have hfitted := hfit n (List.mem_append_right _ hn)
    have := hfitted.ownEntries_within m hm
    rcases List.mem_cons.1 hn with rfl | hn
    · omega
    · have := (hfit first (by simp)).span_le
      have := hafter.mem (List.mem_map_of_mem hn)
      omega
  rw [hdrop, List.flatMap_append, List.filter_append,
    List.filter_eq_nil_iff.2 fun m hm => by simpa using hearly m hm,
    List.filter_eq_self.2 fun m hm => by simpa using hlate m hm, List.nil_append]

/-- **The entries of a section are shared out among its sets**: those of the sets, one set after the
other, are the entries of the section from its first set on, each once and in the order of the
text. -/
theorem sosEntries_parse (text : Text) (options : Options) {c : Cursor}
    (hc : c ∈ (parse text options).tree.cursors) (hk : c.focus.kind = .sectionNode) :
    (c.focus.childOfKind? .sosSet = none →
        (c.children.filter (·.focus.kind == .sosSet)).flatMap Cursor.sosEntries = []) ∧
      (∀ first, c.focus.childOfKind? .sosSet = some first →
        (c.children.filter (·.focus.kind == .sosSet)).flatMap Cursor.sosEntries =
          c.focus.descendants.filter fun n =>
            n.kind == .sosEntry && decide (first.span.start ≤ n.span.start)) ∧
      ((c.children.filter (·.focus.kind == .sosSet)).flatMap Cursor.sosEntries).Pairwise
        fun m n => m.span.start < n.span.start := by
  have hmem := Tree.focus_mem_descendants hc
  obtain ⟨hfit, hbelow⟩ := parse_nodes text options hmem (by rw [hk]; exact Kind.noConfusion)
  have hfitted := hfit.children
  have hadjoin := (hfit.tiled (hfit.children_ne (hk ▸ rfl))).1.adjoin
  rw [Cursor.children, Cursor.sosEntries_placeAll]
  refine ⟨fun hnone => ?_, fun first hfirst => ?_, ?_⟩
  · have hall : ∀ n ∈ c.focus.children, (n.kind != .sosSet) = true :=
      fun n hn => by simpa using List.find?_eq_none.1 hnone n hn
    rw [List.dropWhile_eq_nil_iff.2 hall, List.flatMap_nil]
  · rw [← Node.filter_ownEntries hfitted hadjoin hfirst,
      ← hfit.filter_entry_section hk fun m hm => (hbelow m hm).1, List.filter_filter]
    exact List.filter_congr fun n _ => Bool.and_comm _ _
  · exact (Node.pairwise_ownEntries (fun n hn => hfitted n ((List.dropWhile_sublist _).subset hn))
      ((List.pairwise_map.1 hadjoin.pairwise).sublist (List.dropWhile_sublist _)))

/-- Two sets with an entry each, of which the second stands on a line of its own. -/
theorem sosEntries_parse_two :
    ∃ c ∈ (parse "sos\ns1:: x:1\ns2::\ny:2".toList {}).tree.cursors, c.focus.kind = .sectionNode ∧
      ((c.children.filter (·.focus.kind == .sosSet)).flatMap Cursor.sosEntries).map Node.span =
        [⟨9, 12⟩, ⟨18, 21⟩] ∧
      ((c.children.filter (·.focus.kind == .sosSet)).flatMap Cursor.sosEntries).Pairwise
        fun m n => m.span.start < n.span.start := by
  have h : ∃ c ∈ (parse "sos\ns1:: x:1\ns2::\ny:2".toList {}).tree.cursors,
      c.focus.kind = .sectionNode ∧
      ((c.children.filter (·.focus.kind == .sosSet)).flatMap Cursor.sosEntries).map Node.span =
        [⟨9, 12⟩, ⟨18, 21⟩] := by decide +kernel
  obtain ⟨c, hc, hk, hspans⟩ := h
  exact ⟨c, hc, hk, hspans, (sosEntries_parse _ _ hc hk).2.2⟩

end LpFormat
