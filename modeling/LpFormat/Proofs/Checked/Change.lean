import LpFormat.Proofs.Checked.Arena

/-!
# Changing an arena in one place

After an edit, spans in an arena are moved, and one child of a node may give way to another. Every look
into the arena and every moved offset is tested.

* `Checked.moved`: where a span lies after an edit, `Checked.moved_eq`;
* `Arena.setSpan`, `Arena.moveSpan`, `Arena.moveAround`: other spans; `Arena.Alters`: all other cells
  stay; **`Arena.moveAround_eq`**: the entries that are stored then;
* `Arena.replaceChild`, `Arena.replaceChild_eq`: another child;
* `Crumb.outsideIds`: the nodes outside one place; `Parse.Spliced.movable`: they can be moved.
-/

namespace LpFormat

/-! ## Spans that move -/

/-- The place of a span after the text of another grew. -/
def Checked.moved (s r : Span) (δ : Int) : Checked Span :=
  if s.stop ≤ r.start then .ok s
  else if r.stop ≤ s.start then Checked.shiftSpan s δ else Checked.stretchSpan s δ

/-- A span beside another or around it is moved without fault. -/
theorem Checked.moved_eq {s r : Span} {δ : Int} (hs : s.start ≤ s.stop)
    (hr : (r.start : Int) ≤ r.stop + δ) (hlimit : (s.stop : Int) + δ < Checked.limit)
    (h : s.stop ≤ r.start ∨ r.stop ≤ s.start ∨ s.contains r = true) :
    Checked.moved s r δ = .ok (s.moved r δ) := by
  rw [Checked.moved, Span.moved]
  split_ifs with hbefore hafter
  · rfl
  · have h₁ : 0 ≤ (s.start : Int) + δ := by omega
    exact Checked.shiftSpan_eq (t := ⟨(s.start + δ).toNat, (s.stop + δ).toNat⟩) (Int.toNat_of_nonneg h₁)
      (Int.toNat_of_nonneg (by omega)) (by simp only; omega) (by simp only; omega)
  · have hin := Cursor.contains_iff.1 ((h.resolve_left hbefore).resolve_left hafter)
    exact Checked.stretchSpan_eq (t := ⟨s.start, (s.stop + δ).toNat⟩) rfl
      (Int.toNat_of_nonneg (by omega)) (by simp only; omega) (by simp only; omega)

theorem Span.moved_zero (s r : Span) : s.moved r 0 = s := by
  have hshift : ∀ n : Nat, shiftOffset n 0 = n := fun n => shiftOffset_eq (Int.add_zero _).symm
  rw [moved, shift, stretch, hshift, hshift]
  split_ifs <;> rfl

theorem Entry.moved_zero (r : Span) (x : Entry) : x.moved r 0 = x := by
  rw [Entry.moved, Span.moved_zero]

/-! ## Other spans in an arena -/

namespace Arena

/-- Gives a node another span. -/
def setSpan (a : Arena) (id : Nat) (span : Span) : Checked Arena := do
  let cell ← Checked.get a.cells id
  return ⟨a.cells.set id { cell with span }, a.links⟩

/-- Moves the span of a node. -/
def moveSpan (r : Span) (δ : Int) (a : Arena) (id : Nat) : Checked Arena := do
  let cell ← Checked.get a.cells id
  let span ← Checked.moved cell.span r δ
  a.setSpan id span

/-- Moves the spans of nodes outside a place that grew; nothing is done if it did not. -/
def moveAround (a : Arena) (ids : List Nat) (r : Span) (δ : Int) : Checked Arena :=
  if δ = 0 then .ok a else ids.foldlM (moveSpan r δ) a

/-- An arena in which only some cells differ from another. -/
structure Alters (a b : Arena) (ids : List Nat) : Prop where
  links : b.links = a.links
  length : b.cells.length = a.cells.length
  others : ∀ id ∉ ids, b.cells[id]? = a.cells[id]?
  sound : a.Sound → b.Sound

theorem Alters.refl (a : Arena) (ids : List Nat) : a.Alters a ids := ⟨rfl, rfl, fun _ _ => rfl, id⟩

theorem Alters.trans {a b c : Arena} {ids more : List Nat} (h : a.Alters b ids)
    (h' : b.Alters c more) : a.Alters c (ids ++ more) where
  links := h'.links.trans h.links
  length := h'.length.trans h.length
  others id hid := by
    rw [List.mem_append, not_or] at hid
    exact (h'.others id hid.2).trans (h.others id hid.1)
  sound hs := h'.sound (h.sound hs)

theorem Alters.has {a b : Arena} {ids : List Nat} (h : a.Alters b ids) {x : Entry} (hx : a.Has x)
    (hid : x.id ∉ ids) : b.Has x :=
  hx.mono (h.others x.id hid) (h.links ▸ List.prefix_rfl)

theorem Sound.set {a : Arena} (h : a.Sound) {id : Nat} {c d : Cell} (hc : a.cells[id]? = some c)
    (hstart : d.start = c.start) (hcount : d.count = c.count) : Sound ⟨a.cells.set id d, a.links⟩ := by
  have hcases : ∀ (i : Nat) (x : Cell), (a.cells.set id d)[i]? = some x →
      ∃ y, a.cells[i]? = some y ∧ x.start = y.start ∧ x.count = y.count := by
    intro i x hx
    by_cases hi : i = id
    · subst hi
      rw [List.getElem?_set_self (List.getElem?_eq_some_iff.1 hc).1] at hx
      cases hx
      exact ⟨c, hc, hstart, hcount⟩
    · rw [List.getElem?_set_ne (Ne.symm hi)] at hx
      exact ⟨x, hx, rfl, rfl⟩
  refine ⟨fun x hx => ?_, fun i j x y hx hy hij k hk l hl => ?_⟩
  · obtain ⟨i, hi⟩ := List.getElem?_of_mem hx
    obtain ⟨y, hy, h₁, h₂⟩ := hcases i x hi
    have := h.bound y (List.mem_of_getElem? hy)
    simp only
    omega
  · obtain ⟨x', hx', h₁, h₂⟩ := hcases i x hx
    obtain ⟨y', hy', h₃, h₄⟩ := hcases j y hy
    have := h.apart i j x' y' hx' hy' hij k (h₂ ▸ hk) l (h₄ ▸ hl)
    omega

theorem setSpan_eq {a : Arena} {x : Entry} (h : a.Has x) (span : Span) :
    ∃ b, a.setSpan x.id span = .ok b ∧ a.Alters b [x.id] ∧ b.Has { x with span } := by
  obtain ⟨start, hcell, hlinks⟩ := h
  refine ⟨⟨a.cells.set x.id ⟨x.kind, span, x.parent, x.index, start, x.children.length⟩, a.links⟩,
    by rw [setSpan, Checked.get_eq hcell]; rfl, ⟨rfl, List.length_set, fun id hid => ?_,
    fun hs => hs.set hcell rfl rfl⟩, start, ?_, hlinks⟩
  · exact List.getElem?_set_ne (Ne.symm (List.mem_singleton.not.1 hid))
  · exact List.getElem?_set_self (List.getElem?_eq_some_iff.1 hcell).1

theorem moveSpan_eq {a : Arena} {x : Entry} (h : a.Has x) {r : Span} {δ : Int}
    (hx : Checked.moved x.span r δ = .ok (x.span.moved r δ)) :
    ∃ b, moveSpan r δ a x.id = .ok b ∧ a.Alters b [x.id] ∧ b.Has (x.moved r δ) := by
  obtain ⟨b, hb, halters, hhas⟩ := setSpan_eq h (x.span.moved r δ)
  refine ⟨b, ?_, halters, hhas⟩
  obtain ⟨start, hcell, _⟩ := h
  rw [moveSpan, Checked.get_eq hcell, Checked.ok_bind, hx, Checked.ok_bind]
  exact hb

/-- **The spans outside a place are moved without fault**, and the entries with their new spans are
stored then. -/
theorem moveAround_eq {a : Arena} {xs : List Entry} (h : ∀ x ∈ xs, a.Has x)
    (hids : (xs.map Entry.id).Nodup) {r : Span} {δ : Int}
    (hxs : ∀ x ∈ xs, Checked.moved x.span r δ = .ok (x.span.moved r δ)) :
    ∃ b, a.moveAround (xs.map Entry.id) r δ = .ok b ∧ a.Alters b (xs.map Entry.id) ∧
      ∀ x ∈ xs, b.Has (x.moved r δ) := by
  by_cases hδ : δ = 0
  · subst hδ
    refine ⟨a, if_pos rfl, .refl _ _, fun x hx => ?_⟩
    rw [Entry.moved_zero]
    exact h x hx
  · rw [moveAround, if_neg hδ]
    induction xs generalizing a with
    | nil => exact ⟨a, rfl, .refl _ _, List.forall_mem_nil _⟩
    | cons x xs ih =>
      obtain ⟨hx, hrest⟩ := List.forall_mem_cons.1 h
      obtain ⟨hx', hrest'⟩ := List.forall_mem_cons.1 hxs
      rw [List.map_cons, List.nodup_cons] at hids
      obtain ⟨b, hb, hab, hbx⟩ := moveSpan_eq hx hx'
      have hapart : ∀ y ∈ xs, y.id ∉ [x.id] := fun y hy hmem =>
        hids.1 (List.mem_singleton.1 hmem ▸ List.mem_map_of_mem hy)
      obtain ⟨c, hc, hbc, hcx⟩ := ih (fun y hy => hab.has (hrest y hy) (hapart y hy)) hids.2 hrest'
      refine ⟨c, ?_, hab.trans hbc, List.forall_mem_cons.2 ⟨hbc.has hbx hids.1, hcx⟩⟩
      rw [List.map_cons, List.foldlM_cons, hb, Checked.ok_bind, hc]

/-! ## Another child -/

/-- Puts another node in the place of a child. -/
def replaceChild (a : Arena) (parent index child : Nat) : Checked Arena := do
  let cell ← Checked.get a.cells parent
  let _ ← Checked.get a.links (cell.start + index)
  return ⟨a.cells, a.links.set (cell.start + index) child⟩

/-- A child is replaced without fault; only the entry of the node above changes. -/
theorem replaceChild_eq {a : Arena} (hs : a.Sound) {x : Entry} (h : a.Has x) {index : Nat}
    (hindex : index < x.children.length) (child : Nat) :
    ∃ b, a.replaceChild x.id index child = .ok b ∧ b.cells = a.cells ∧ b.Sound ∧
      b.Has { x with children := x.children.set index child } ∧
      ∀ y, y.id ≠ x.id → a.Has y → b.Has y := by
  obtain ⟨start, hcell, hlinks⟩ := h
  have hlink : a.links[start + index]? = some (x.children[index]) := by
    rw [hlinks index hindex, List.getElem?_eq_getElem hindex]
  have hlt := (List.getElem?_eq_some_iff.1 hlink).1
  refine ⟨⟨a.cells, a.links.set (start + index) child⟩, ?_, rfl, ⟨fun c hc => ?_, hs.apart⟩,
    ⟨start, ?_, fun i hi => ?_⟩, fun y hy hhas => ?_⟩
  · rw [replaceChild, Checked.get_eq hcell, Checked.ok_bind, Checked.get_eq hlink]
    rfl
  · rw [List.length_set]
    exact hs.bound c hc
  · rw [List.length_set]
    exact hcell
  · simp only [List.length_set] at hi
    by_cases hii : i = index
    · subst hii
      rw [List.getElem?_set_self hlt, List.getElem?_set_self hindex]
    · rw [List.getElem?_set_ne (by omega), List.getElem?_set_ne (Ne.symm hii), hlinks i hi]
  · obtain ⟨start', hcell', hlinks'⟩ := hhas
    refine ⟨start', hcell', fun i hi => ?_⟩
    rw [List.getElem?_set_ne, hlinks' i hi]
    exact hs.apart x.id y.id _ _ hcell hcell' (Ne.symm hy) index hindex i hi

end Arena

/-! ## Entries outside one place -/

namespace Crumb

variable {r : Span}

theorem place_of_mem_entriesBefore {ks : List Crumb} (h : ∀ k ∈ ks, k.Beside r) {id : Nat} {x : Entry}
    (hx : x ∈ entriesBefore ks id) : x.span.stop ≤ r.start ∨ x.span.contains r = true := by
  induction ks generalizing id with
  | nil => cases hx
  | cons k ks ih =>
    obtain ⟨hk, hks⟩ := List.forall_mem_cons.1 h
    rw [entriesBefore, List.mem_append, List.mem_cons] at hx
    rcases hx with hx | rfl | hx
    · exact ih hks hx
    · exact .inr hk.around
    · obtain ⟨n, hn, i, hx⟩ := Node.mem_entriesAll hx
      obtain ⟨hfit, hstop⟩ := hk.before n (List.mem_reverse.1 hn)
      have := hfit.span_of_mem_entries hx
      exact .inl (by omega)

theorem place_of_mem_entriesAfter {ks : List Crumb} (h : ∀ k ∈ ks, k.Beside r) {x : Entry}
    (hx : x ∈ entriesAfter ks) : r.stop ≤ x.span.start := by
  induction ks with
  | nil => cases hx
  | cons k ks ih =>
    obtain ⟨hk, hks⟩ := List.forall_mem_cons.1 h
    rw [entriesAfter, List.mem_append] at hx
    rcases hx with hx | hx
    · obtain ⟨n, hn, i, hx⟩ := Node.mem_entriesAll hx
      obtain ⟨hfit, hstart⟩ := hk.after n hn
      have := hfit.span_of_mem_entries hx
      omega
    · exact ih hks hx

theorem map_id_entriesBefore (ks : List Crumb) (id : Nat) :
    (entriesBefore ks id).map Entry.id = idsBefore ks := by
  induction ks generalizing id with
  | nil => rfl
  | cons k ks ih =>
    rw [entriesBefore, idsBefore, List.map_append, List.map_cons, ih, Node.map_id_entriesAll,
      Node.descendantsAll_eq_flatMap]
    rfl

theorem map_id_entriesAfter (ks : List Crumb) : (entriesAfter ks).map Entry.id = idsAfter ks := by
  induction ks with
  | nil => rfl
  | cons k ks ih =>
    rw [entriesAfter, idsAfter, List.map_append, ih, Node.map_id_entriesAll,
      Node.descendantsAll_eq_flatMap]

/-- The spans of the levels above a node do not depend on its id. -/
theorem exists_entryBefore {ks : List Crumb} {id : Nat} {x : Entry} (hx : x ∈ entriesBefore ks id)
    (id' : Nat) : ∃ y ∈ entriesBefore ks id', y.span = x.span := by
  cases ks with
  | nil => cases hx
  | cons k ks =>
    rw [entriesBefore, List.mem_append, List.mem_cons] at hx
    simp only [entriesBefore, List.mem_append, List.mem_cons]
    rcases hx with hx | rfl | hx
    · exact ⟨x, .inl hx, rfl⟩
    · exact ⟨k.entry ks id', .inr (.inl rfl), rfl⟩
    · exact ⟨x, .inr (.inr hx), rfl⟩

end Crumb

/-- The ids of the nodes outside a node, with those above it. -/
def Cursor.outside (c : Cursor) : List Nat := Crumb.idsBefore c.path ++ Crumb.idsAfter c.path

theorem Cursor.outside_eq (c : Cursor) (id : Nat) : c.outside =
    (Crumb.entriesBefore c.path id ++ Crumb.entriesAfter c.path).map Entry.id := by
  rw [List.map_append, Crumb.map_id_entriesBefore, Crumb.map_id_entriesAfter]
  rfl

theorem Cursor.not_mem_outside {c : Cursor} {ids : List Nat}
    (h : (Crumb.idsBefore c.path ++ ids ++ Crumb.idsAfter c.path).Nodup) {id : Nat} (hid : id ∈ ids) :
    id ∉ c.outside := by
  intro hmem
  rw [List.append_assoc, List.nodup_append, List.nodup_append] at h
  obtain ⟨_, ⟨_, _, hafter⟩, hbefore⟩ := h
  rcases List.mem_append.1 hmem with hmem | hmem
  · exact hbefore _ hmem _ (List.mem_append_left _ hid) rfl
  · exact hafter _ hid _ hmem rfl

theorem Cursor.nodup_outside {c : Cursor} {ids : List Nat}
    (h : (Crumb.idsBefore c.path ++ ids ++ Crumb.idsAfter c.path).Nodup) : c.outside.Nodup := by
  refine h.sublist ?_
  rw [outside, List.append_assoc]
  exact (List.Sublist.refl _).append (List.sublist_append_right _ _)

/-- Another node below the root leaves the root its id. -/
theorem Cursor.splice_id {c : Cursor} (h : c.path ≠ []) (n : Node) (δ : Int) :
    (c.splice n δ).id = c.root.id := by
  have hnew := c.splice_ids n δ
  have hold := root_ids c.path c.focus
  obtain ⟨id, ids, hids⟩ : ∃ id ids, Crumb.idsBefore c.path = id :: ids := by
    refine List.exists_cons_of_ne_nil fun hnil => ?_
    obtain ⟨k, ks, hpath⟩ := List.exists_cons_of_ne_nil h
    rw [hpath, Crumb.idsBefore] at hnil
    exact List.cons_ne_nil _ _ (List.append_eq_nil_iff.1 hnil).2
  rw [Node.descendants_eq, List.map_cons, hids] at hnew hold
  exact (List.cons.inj hnew).1.trans (List.cons.inj hold).1.symm

/-- What is below a root lies inside the text. -/
theorem Node.Rooted.stop_le {n : Node} {f : List Skeleton} {size : Nat} (h : n.Rooted f size)
    {parent : Option Nat} {index : Nat} {x : Entry} (hx : x ∈ n.entries parent index) :
    x.span.stop ≤ size := by
  have hstop : n.span.stop = size := by rw [h.span]
  rw [entries_eq] at hx
  rcases List.mem_cons.1 hx with rfl | hx
  · exact Nat.le_of_eq hstop
  · obtain ⟨c, hc, i, hx⟩ := mem_entriesAll hx
    have hin := (h.tiled.fitted c hc).span_of_mem_entries hx
    have hadjoin := h.tiled.adjoin.mem (List.mem_map_of_mem hc)
    omega

namespace Parse.Spliced

variable {p q : Parse} {e : Edit} {c : Cursor} {n : Node} (hp : p.Faithful) (h : p.Spliced e c n q)

include hp h

omit hp in
theorem mem_entries {x : Entry}
    (hx : x ∈ Crumb.entriesBefore c.path c.focus.id ++ Crumb.entriesAfter c.path) :
    x ∈ p.tree.entries := by
  rw [Tree.entries_eq, ← h.root, Cursor.entries_root]
  rcases List.mem_append.1 hx with hx | hx
  · exact List.mem_append_left _ (List.mem_append_left _ hx)
  · exact List.mem_append_right _ hx

/-- The entries outside the place of an edit are moved without fault, if 32 bits hold the offsets of
the new text. -/
theorem movable (hsize : (p.text.byteSize : Int) + e.delta < Checked.limit) {x : Entry} {id : Nat}
    (hx : x ∈ Crumb.entriesBefore c.path id ++ Crumb.entriesAfter c.path) :
    Checked.moved x.span c.focus.span e.delta = .ok (x.span.moved c.focus.span e.delta) := by
  obtain ⟨f, _, hroot⟩ := hp.tree
  have hbeside := h.beside hp
  have hplace : x.span.stop ≤ c.focus.span.start ∨ c.focus.span.stop ≤ x.span.start ∨
      x.span.contains c.focus.span = true := by
    rcases List.mem_append.1 hx with hx | hx
    · exact (Crumb.place_of_mem_entriesBefore hbeside hx).imp_right .inr
    · exact .inr (.inl (Crumb.place_of_mem_entriesAfter hbeside hx))
  obtain ⟨y, hy, hspan⟩ : ∃ y ∈ p.tree.entries, y.span = x.span := by
    rcases List.mem_append.1 hx with hx | hx
    · obtain ⟨y, hy, hspan⟩ := Crumb.exists_entryBefore hx c.focus.id
      exact ⟨y, h.mem_entries (List.mem_append_left _ hy), hspan⟩
    · exact ⟨x, h.mem_entries (List.mem_append_right _ hx), rfl⟩
  rw [Tree.entries_eq] at hy
  have hle := hroot.tiled.span_of_mem_entries hy
  have hstop := hroot.stop_le hy
  rw [hspan] at hle hstop
  have hn := h.fitted.span_le
  have h₁ := h.start
  have h₂ := h.stop
  exact Checked.moved_eq hle (by omega) (by omega) hplace

/-- **The arena after an edit in one place**: where it stores the new node, and the old entries outside
with their old spans, moving spans is without fault and gives the entries of the new tree. -/
theorem moveAround_eq (hids : (q.tree.root.descendants.map Node.id).Nodup)
    (hsize : (p.text.byteSize : Int) + e.delta < Checked.limit) {a : Arena}
    (hold : ∀ x ∈ Crumb.entriesBefore c.path n.id ++ Crumb.entriesAfter c.path, a.Has x)
    (hnew : ∀ x ∈ n.entries (c.path.head?.map Crumb.id) c.index, a.Has x) :
    ∃ b, a.moveAround c.outside c.focus.span e.delta = .ok b ∧ b.cells.length = a.cells.length ∧
      (a.Sound → b.Sound) ∧ ∀ x ∈ q.tree.entries, b.Has x := by
  have houtside := c.outside_eq n.id
  rw [h.tree, Cursor.splice_ids] at hids
  have hnodup := Cursor.nodup_outside hids
  have hapart : ∀ x ∈ n.entries (c.path.head?.map Crumb.id) c.index, x.id ∉ c.outside := by
    intro x hx
    refine Cursor.not_mem_outside hids ?_
    rw [← Node.map_id_entries (c.path.head?.map Crumb.id) c.index]
    exact List.mem_map_of_mem hx
  obtain ⟨b, hb, halters, hmoved⟩ := Arena.moveAround_eq hold (houtside ▸ hnodup)
    (fun x hx => h.movable hp hsize hx)
  rw [← houtside] at hb halters
  refine ⟨b, hb, halters.length, halters.sound, fun x hx => ?_⟩
  rw [h.entries_eq hp, Crumb.entriesBefore_grow (h.beside hp) (h.solid hp), List.mem_append,
    List.mem_append, List.mem_map, List.mem_map] at hx
  rcases hx with (⟨y, hy, rfl⟩ | hx) | ⟨y, hy, rfl⟩
  · exact hmoved y (List.mem_append_left _ hy)
  · exact halters.has (hnew x hx) (hapart x hx)
  · exact hmoved y (List.mem_append_right _ hy)

end Parse.Spliced

end LpFormat
