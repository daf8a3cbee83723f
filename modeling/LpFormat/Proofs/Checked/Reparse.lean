import LpFormat.Proofs.Checked.Machine
import LpFormat.Proofs.Checked.Relex

/-!
# Parsing again with every step tested

A result of parsing is kept with its tree in an arena. It is read from there, and an edit is answered
by changes in the arena, in one of three ways. Each of them is tested step by step.

* `Filed`: a result with its tree in an arena, `Filed.load`; `Filed.Holds`: the result it holds,
  `Filed.Holds.load_eq`;
* `Filed.parse`: a whole document, `Filed.parse_eq`;
* `Filed.relexes`, `Filed.relexToken`: one token, **`Filed.relexToken_eq`**;
* `Filed.fragment`, `Filed.fits`, `Filed.splice`, `Filed.reparseStatement`: one statement,
  **`Filed.reparseStatement_eq`**; `Filed.Agree`: the answers found by testing and without.
-/

namespace LpFormat

/-! ## Results in an arena -/

/-- A result of parsing, with its tree in an arena. -/
structure Filed where
  text : Text
  arena : Arena
  /-- The index of the root. -/
  root : Nat
  /-- How many cells belong to nodes that are no longer in the tree. -/
  dead : Nat
  diagnostics : List Diagnostic
  options : Options
deriving DecidableEq

namespace Filed

/-- Reads a result from its arena. -/
def load (d : Filed) : Checked Parse := do
  let root ← d.arena.load d.arena.cells.length none 0 d.root
  return ⟨⟨d.text, root, d.arena.cells.length, d.dead⟩, d.diagnostics, d.options⟩

/-- The number of nodes. -/
def count (d : Filed) : Checked Nat := Checked.sub d.arena.cells.length d.dead

/-- Parses a document. -/
def parse (text : Text) (options : Options) : Checked Filed := do
  let output ← Machine.document text
  let (arena, roots) ← Assembly.build ⟨[], []⟩ none 0 output.events
  return ⟨text, arena, roots.head?.getD 0, 0,
    Diagnostic.arrange options.maxErrors output.diagnostics, options⟩

/-- The result that is kept. -/
structure Holds (d : Filed) (p : Parse) : Prop where
  text : d.text = p.text
  root : d.root = p.tree.root.id
  dead : d.dead = p.tree.dead
  diagnostics : d.diagnostics = p.diagnostics
  options : d.options = p.options
  length : d.arena.cells.length = p.tree.allocated
  sound : d.arena.Sound
  entries : ∀ x ∈ p.tree.entries, d.arena.Has x

/-- A result is read from its arena without fault. -/
theorem Holds.load_eq {d : Filed} {p : Parse} (h : d.Holds p) (ha : p.Accounted) : d.load = .ok p := by
  have hsize := ha.entries
  have hentries := h.entries
  rw [Tree.entries_eq] at hentries
  rw [load, h.root, h.length, Arena.load_eq hentries (by omega), Checked.ok_bind, h.text, h.dead,
    h.diagnostics, h.options]
  rfl

theorem Holds.count_eq {d : Filed} {p : Parse} (h : d.Holds p) (ha : p.Accounted) :
    d.count = .ok p.tree.nodeCount := by
  have := ha.entries
  rw [count, h.length, h.dead, Checked.sub_eq (by omega)]
  rfl

/-- The answer to an edit that is found by testing every step, and the one that is found without. -/
def Agree : Option Filed → Option Reparse → Prop := Option.Rel fun d answer => d.Holds answer.parse

/-- **A document is parsed without fault.** -/
theorem parse_eq {text : Text} (h : text.byteSize < Checked.limit) (options : Options) :
    ∃ d, parse text options = .ok d ∧ d.Holds (LpFormat.parse text options) := by
  obtain ⟨f, ns, he, _, hns, htree⟩ := parse_built text options
  obtain ⟨arena, hbuild, hlength, hhas⟩ := Assembly.build_document hns.fitted hns.numbered hns.spans
  rw [hns.skeletons, ← he] at hbuild
  refine ⟨_, by rw [parse, Machine.document_eq h, Checked.ok_bind]; exact congrArg (· >>= _) hbuild, ?_⟩
  refine ⟨?_, ?_, ?_, rfl, rfl, ?_, ?_, ?_⟩
  · rw [Parse.text, htree]
  · rw [htree]
    rfl
  · rw [htree]
  · rw [htree, hlength]
  · exact Assembly.build_sound .nil hbuild
  · rw [Tree.entries_eq, htree]
    exact hhas

end Filed

/-! ## The place of an edit -/

namespace Parse

section Place

variable {p : Parse} {e : Edit} {a m z : Text} {c : Cursor} (hp : p.Faithful)
  (hcut : e.Cuts p.text a m z) (hsmall : (a ++ e.insert ++ z).byteSize < Checked.limit)
  (hroot : c.root = p.tree.root) (hpath : c.path ≠ []) (hin : c.focus.span.contains e.span = true)

include hp hcut hroot hpath hin

/-- The text of a node before and after an edit inside it. -/
theorem exists_middle : ∃ x old mid y : Text, p.text = x ++ (old ++ y) ∧
    a ++ e.insert ++ z = x ++ (mid ++ y) ∧ c.focus.span.start = x.byteSize ∧
    c.focus.span.stop = x.byteSize + old.byteSize ∧
    (mid.byteSize : Int) = old.byteSize + e.delta := by
  obtain ⟨f, A, M, B, r₁, r₂, m₁, m₂, mid, _, hplaced, hs, hnew, hmid⟩ :=
    hp.exists_edited hcut hroot hpath hin
  refine ⟨_, _, mid, _, ?_, hnew, hs.byteSize_before.symm, ?_, hmid⟩
  · rw [hs.text_eq, List.append_assoc]
  · rw [hs.byteSize_before, hs.byteSize_inside]

theorem size_lt (hsmall : (a ++ e.insert ++ z).byteSize < Checked.limit) :
    (p.text.byteSize : Int) + e.delta < Checked.limit := by
  obtain ⟨x, old, mid, y, htext, hnew, _, _, hmid⟩ := exists_middle hp hcut hroot hpath hin
  rw [hnew] at hsmall
  rw [htext]
  simp only [Text.byteSize_append] at hsmall ⊢
  omega

include hsmall

theorem stretchSpan_eq : Checked.stretchSpan c.focus.span e.delta =
    .ok (c.focus.span.stretch e.delta) := by
  obtain ⟨x, old, mid, y, _, hnew, hstart, hstop, hmid⟩ := exists_middle hp hcut hroot hpath hin
  rw [hnew] at hsmall
  simp only [Text.byteSize_append] at hsmall
  exact Checked.stretchSpan_eq (t := ⟨x.byteSize, x.byteSize + mid.byteSize⟩) hstart.symm
    (by simp only; omega) (Nat.le_add_right _ _) (by simp only; omega)

theorem shift_stop : Checked.shift c.focus.span.stop e.delta =
    .ok (shiftOffset c.focus.span.stop e.delta) := by
  obtain ⟨x, old, mid, y, _, hnew, hstart, hstop, hmid⟩ := exists_middle hp hcut hroot hpath hin
  rw [hnew] at hsmall
  simp only [Text.byteSize_append] at hsmall
  exact Checked.shift_eq (b := x.byteSize + mid.byteSize) (by omega) (by omega)

theorem relexPrefix_eq : ∃ o, Scanner.relexPrefix c (a ++ e.insert ++ z) = .ok o ∧
    Scanner.Agree o (relexPrefix? c (a ++ e.insert ++ z)) := by
  obtain ⟨f, A, M, B, r₁, r₂, m₁, m₂, mid, _, hplaced, hs, hnew, hmid⟩ :=
    hp.exists_edited hcut hroot hpath hin
  rw [hnew] at hsmall ⊢
  exact Scanner.relexPrefix_eq hs.before (hs.holdsBefore hplaced.fitted.2) hs.start.symm hsmall

theorem shiftSpan_nextLeaf : ∀ leaf ∈ c.nextLeaf?,
    Checked.shiftSpan leaf.span e.delta = .ok (leaf.span.shift e.delta) := by
  intro leaf hleaf
  obtain ⟨f, _, hf⟩ := hp.tree
  obtain ⟨h₁, h₂, h₃⟩ := (Cursor.placed_of_root hf hroot hpath).nextLeaf? hleaf
  have hsize := size_lt hp hcut hroot hpath hin hsmall
  obtain ⟨x, old, mid, y, _, _, _, hstop, hmid⟩ := exists_middle hp hcut hroot hpath hin
  have hstart : 0 ≤ (leaf.span.start : Int) + e.delta := by omega
  exact Checked.shiftSpan_eq (t := ⟨(leaf.span.start + e.delta).toNat, (leaf.span.stop + e.delta).toNat⟩)
    (Int.toNat_of_nonneg hstart) (Int.toNat_of_nonneg (by omega)) (by simp only; omega)
    (by simp only; omega)

/-- The diagnostics of a result are moved without fault. -/
theorem shiftFrom_eq {ds : List Diagnostic} (hds : ∀ d ∈ ds, d ∈ p.diagnostics) :
    ds.mapM (Checked.shiftFrom c.focus.span.stop e.delta) =
      .ok (ds.map (Diagnostic.shiftFrom c.focus.span.stop e.delta)) := by
  refine Checked.mapM_eq fun d hd => ?_
  have hmem := hds d hd
  rw [hp.diagnostics] at hmem
  obtain ⟨_, h₂, h₃⟩ := located_within (adjoin_lex p.text)
    (Rule.document_located p.text d (Diagnostic.mem_of_mem_arrange hmem))
  have hsize := size_lt hp hcut hroot hpath hin hsmall
  obtain ⟨x, old, mid, y, _, _, _, hstop, hmid⟩ := exists_middle hp hcut hroot hpath hin
  exact Checked.shiftFrom_eq (by omega) h₂ (by omega)

end Place

/-- A statement that was found and parsed is the innermost one around the edit. -/
theorem statementFragment?_find? {p : Parse} {e : Edit} {new : Text} {c : Cursor} {fragment : Fragment}
    (h : p.statementFragment? e new = some (c, fragment)) :
    (p.tree.cover e.span).ancestors.find? isOuterStatement = some c := by
  simp only [statementFragment?, Option.bind_eq_bind, Option.bind_eq_some_iff] at h
  obtain ⟨c', hc, _, _, _, _, _, _, _, _, heq⟩ := h
  cases heq
  exact hc

end Parse

/-! ## One token -/

namespace Filed

/-- The new span of the token that an edit falls into, if it is read as before but for its text. -/
def relexes (p : Parse) (e : Edit) (δ : Int) (text : Text) : Checked (Option Span) := do
  let c := p.tree.cover e.span
  if relexable.contains c.focus.kind && !p.diagnostics.any fun d => d.span.touches c.focus.span then
    let span ← Checked.stretchSpan c.focus.span δ
    let old ← Checked.cut p.text c.focus.span
    let new ← Checked.cut text span
    if sameShape c.focus.kind old new then
      match ← Scanner.relexPrefix c text with
      | none => return none
      | some (s, mode) =>
        let (token, s) ← s.next mode
        if token.kind == c.focus.kind && token.span == span then
          let same ← s.nextMatches c (mode.next c.focus.kind) δ
          return if same then some span else none
        else return none
    else return none
  else return none

/-- Answers an edit that changes the text of one token. -/
def relexToken (d : Filed) (p : Parse) (e : Edit) (δ : Int) (text : Text) : Checked (Option Filed) := do
  match ← relexes p e δ text with
  | none => return none
  | some span =>
    let c := p.tree.cover e.span
    let arena ← d.arena.setSpan c.focus.id span
    let arena ← arena.moveAround c.outside c.focus.span δ
    let diagnostics ← d.diagnostics.mapM (Checked.shiftFrom c.focus.span.stop δ)
    let new := { d with text, arena, diagnostics }
    let count ← new.count
    let _ ← Checked.sub count 1
    return some new

theorem guard_bind {α : Type} {c : Prop} [Decidable c] (f : Unit → Option α) :
    (guard c >>= f) = if c then f () else none := by
  split_ifs with h <;> simp [guard, h]

variable {p : Parse} {e : Edit} {a m z : Text}

/-- A token that may be read again is not the root. -/
theorem below_of_relexable (hp : p.Faithful)
    (h : relexable.contains (p.tree.cover e.span).focus.kind = true) :
    (p.tree.cover e.span).path ≠ [] ∧
      (p.tree.cover e.span).focus.span.contains e.span = true := by
  obtain ⟨f, _, hroot⟩ := hp.tree
  have hpath : (p.tree.cover e.span).path ≠ [] := by
    intro hnil
    have hfocus := Cursor.cover_root p.tree e.span
    rw [Cursor.root, hnil, List.foldl_nil] at hfocus
    rw [hfocus, hroot.kind] at h
    cases h
  exact ⟨hpath, (Cursor.cover_placed hroot e.span hpath).2⟩

theorem relexes_eq (hp : p.Faithful) (hcut : e.Cuts p.text a m z)
    (hsmall : (a ++ e.insert ++ z).byteSize < Checked.limit) :
    relexes p e e.delta (a ++ e.insert ++ z) = .ok ((p.relexToken? e (a ++ e.insert ++ z)).map fun _ =>
      (p.tree.cover e.span).focus.span.stretch e.delta) := by
  have hroot := Cursor.cover_root p.tree e.span
  have hbelow := below_of_relexable (e := e) hp
  rw [relexes, Parse.relexToken?]
  simp only [guard_bind]
  generalize hc : p.tree.cover e.span = c at hroot hbelow ⊢
  by_cases hk : relexable.contains c.focus.kind = true
  swap
  · simp only [hk]
    rfl
  obtain ⟨hpath, hin⟩ := hbelow hk
  obtain ⟨x, old, mid, y, htext, hnew, hstart, hstop, hmid⟩ :=
    Parse.exists_middle hp hcut hroot hpath hin
  have hstretch := Parse.stretchSpan_eq hp hcut hsmall hroot hpath hin
  obtain ⟨o, hline, hagree⟩ := Parse.relexPrefix_eq hp hcut hsmall hroot hpath hin
  have hold : Checked.cut p.text c.focus.span = .ok (p.tree.textOf c.focus) :=
    Checked.cut_slice htext hstart hstop
  have hcutNew : Checked.cut (a ++ e.insert ++ z) (c.focus.span.stretch e.delta) =
      .ok ((a ++ e.insert ++ z).slice (c.focus.span.stretch e.delta)) :=
    Checked.cut_slice hnew hstart (shiftOffset_eq (by omega))
  generalize relexPrefix? c (a ++ e.insert ++ z) = q at hagree ⊢
  simp only [hstretch, hold, hcutNew, Checked.ok_bind, hline, hk, Bool.true_and, if_true]
  by_cases hany : (p.diagnostics.any fun d => d.span.touches c.focus.span) = true
  · simp only [hany]
    rfl
  by_cases hshape : sameShape c.focus.kind (p.tree.textOf c.focus)
      ((a ++ e.insert ++ z).slice (c.focus.span.stretch e.delta)) = true
  swap
  · simp only [hany, hshape]
    rfl
  simp only [hany, hshape]
  cases hagree with
  | none => rfl
  | @some s r h =>
    obtain ⟨s, mode⟩ := s
    obtain ⟨r, mode'⟩ := r
    obtain ⟨hshows, rfl⟩ := h
    obtain ⟨s', hnext, hshows', _⟩ := Scanner.next_eq hshows mode
    have hmatch := Scanner.nextMatches_eq hshows' (Parse.shiftSpan_nextLeaf hp hcut hsmall hroot hpath hin)
      (mode.next c.focus.kind)
    simp only [hnext, Checked.ok_bind, hmatch, Option.bind_eq_bind, Option.bind_some]
    cases (r.next mode).1.kind == c.focus.kind &&
        (r.next mode).1.span == c.focus.span.stretch e.delta with
    | false => rfl
    | true => cases nextMatches c (r.next mode).2 (mode.next c.focus.kind) e.delta <;> rfl

/-- The arena after the text of one token has changed. -/
theorem exists_respanned {d : Filed} (h : d.Holds p) (hp : p.Faithful) {q : Parse} {c : Cursor} {n : Node}
    (hs : p.Spliced e c n q) (hids : (q.tree.root.descendants.map Node.id).Nodup)
    (hsize : (p.text.byteSize : Int) + e.delta < Checked.limit) {span : Span}
    (hn : n = ⟨c.focus.id, c.focus.kind, span, []⟩) (hc : c.focus.children = []) :
    ∃ b b', d.arena.setSpan c.focus.id span = .ok b ∧
      b.moveAround c.outside c.focus.span e.delta = .ok b' ∧
      b'.cells.length = d.arena.cells.length ∧ b'.Sound ∧ ∀ x ∈ q.tree.entries, b'.Has x := by
  have hmem : c.entry ∈ p.tree.entries := by
    rw [Tree.entries_eq, ← hs.root]
    exact c.entry_mem_root
  obtain ⟨b, hset, halters, hleaf⟩ := Arena.setSpan_eq (h.entries _ hmem) span
  have hold : ∀ x ∈ Crumb.entriesBefore c.path n.id ++ Crumb.entriesAfter c.path, b.Has x := by
    intro x hx
    rw [hn] at hx
    refine halters.has (h.entries x (hs.mem_entries hx)) fun hid => ?_
    have hout : x.id ∈ c.outside := by
      rw [c.outside_eq c.focus.id]
      exact List.mem_map_of_mem hx
    rw [List.mem_singleton.1 hid] at hout
    have hnodup := hp.ids
    rw [← hs.root] at hnodup
    refine Cursor.not_mem_outside (Cursor.root_ids c.path c.focus ▸ hnodup) ?_ hout
    rw [Node.descendants_eq]
    exact List.mem_cons_self
  have hnew : ∀ x ∈ n.entries (c.path.head?.map Crumb.id) c.index, b.Has x := by
    rw [hn, Node.entries, List.forall_mem_cons]
    refine ⟨?_, List.forall_mem_nil _⟩
    rw [Cursor.entry, hc, Cursor.parent?_map_id] at hleaf
    exact hleaf
  obtain ⟨b', hmove, hlength, hsound, hentries⟩ := hs.moveAround_eq hp hids hsize hold hnew
  exact ⟨b, b', hset, hmove, hlength.trans halters.length, hsound (halters.sound h.sound), hentries⟩

/-- **An edit of one token is answered without fault.** -/
theorem relexToken_eq {d : Filed} (h : d.Holds p) (hp : p.Faithful) (ha : p.Accounted)
    (hcap : p.capReached = false) (hcut : e.Cuts p.text a m z)
    (hsmall : (a ++ e.insert ++ z).byteSize < Checked.limit) :
    ∃ o, d.relexToken p e e.delta (a ++ e.insert ++ z) = .ok o ∧
      Agree o (p.relexToken? e (a ++ e.insert ++ z)) := by
  have hrelexes := relexes_eq hp hcut hsmall
  cases hanswer : p.relexToken? e (a ++ e.insert ++ z) with
  | none =>
    refine ⟨none, ?_, .none⟩
    rw [relexToken, hrelexes, hanswer]
    rfl
  | some answer =>
    obtain ⟨c, n, rfl, hs, hk, hn, hallocated, hdead, _⟩ := Parse.relexToken?_spliced hp hcut hanswer
    obtain ⟨hfaithful, htext, hoptions⟩ := Parse.relexToken?_faithful hp hcap hcut hanswer
    obtain ⟨_, _, _, hparse⟩ := Parse.relexToken?_cases hanswer
    obtain ⟨f, _, hroot⟩ := hp.tree
    have hleaf := (Cursor.placed_of_root hroot hs.root hs.below).fitted.1.children_eq_nil hk
    rw [hleaf] at hn
    obtain ⟨b, b', hset, hmove, hlength, hsound, hentries⟩ := exists_respanned h hp hs hfaithful.ids
      (Parse.size_lt hp hcut hs.root hs.below hs.around hsmall) hn hleaf
    have hdiagnostics := Parse.shiftFrom_eq hp hcut hsmall hs.root hs.below hs.around
      fun d hd => (hd : d ∈ p.diagnostics)
    have hentries' := ha.entries
    have hpos := p.tree.root.size_eq
    refine ⟨some ⟨a ++ e.insert ++ z, b', d.root, d.dead, p.diagnostics.map
      (Diagnostic.shiftFrom (p.tree.cover e.span).focus.span.stop e.delta), d.options⟩, ?_,
      .some ⟨htext.symm, ?_, h.dead.trans hdead.symm, ?_, h.options.trans hoptions.symm, ?_, hsound,
        hentries⟩⟩
    · rw [relexToken, hrelexes, hanswer, Option.map_some, Checked.ok_bind]
      simp only
      rw [hset, Checked.ok_bind, hmove, Checked.ok_bind, h.diagnostics, hdiagnostics, Checked.ok_bind,
        count]
      simp only [hlength, h.length, h.dead]
      rw [Checked.sub_eq (by omega), Checked.ok_bind, Checked.sub_eq (by omega)]
      rfl
    · rw [h.root, hs.tree, Cursor.splice_id hs.below, hs.root]
    · rw [hparse]
    · rw [hlength, h.length, hallocated]

/-! ## One statement -/

/-- The statement around an edit, and the new statement in its place. -/
def fragment (p : Parse) (e : Edit) (text : Text) : Checked (Option (Cursor × Fragment)) := do
  match (p.tree.cover e.span).ancestors.find? Parse.isOuterStatement with
  | none => return none
  | some c =>
    match Parse.ruleAt? c with
    | none => return none
    | some rule =>
      if Parse.startsStatement c then
        match ← Scanner.relexPrefix c text with
        | none => return none
        | some (_, mode) =>
          let resumeAfter := (c.prevSignificant?.map (·.span.stop)).getD 0
          let fragment ← Machine.statement text c.focus.span.start resumeAfter mode rule
          return fragment.map fun f => (c, f)
      else return none

/-- Whether a new statement can stand in the place of an old one. -/
def fits (c : Cursor) (fragment : Fragment) (text : Text) (δ : Int) : Checked Bool := do
  match c.focus.firstLeaf?, c.focus.lastLeaf? with
  | some first, some last =>
    let mode := Mode.after fragment.lastKind
    let stop ← Checked.shift c.focus.span.stop δ
    if fragment.stop == stop &&
        (fragment.output.events.findSome? Event.tokenKind?).map Kind.lexedAs ==
          some first.kind.lexedAs && mode == Mode.after last.kind.lexedAs then
      let s ← Scanner.resume text fragment.stop
      s.nextMatches c mode δ
    else return false
  | _, _ => return false

theorem fragment_eq (hp : p.Faithful) (hcut : e.Cuts p.text a m z)
    (hsmall : (a ++ e.insert ++ z).byteSize < Checked.limit) :
    fragment p e (a ++ e.insert ++ z) = .ok (p.statementFragment? e (a ++ e.insert ++ z)) := by
  rw [fragment, Parse.statementFragment?]
  cases hfind : (p.tree.cover e.span).ancestors.find? Parse.isOuterStatement with
  | none => rfl
  | some c =>
    have hmem := List.mem_of_find?_eq_some hfind
    have hroot := Cursor.ancestor_root hmem
    obtain ⟨hpath, hin⟩ := hp.below_of_outer hmem (List.find?_some hfind)
    obtain ⟨x, old, mid, y, _, hnew, hstart, _, _⟩ := Parse.exists_middle hp hcut hroot hpath hin
    obtain ⟨o, hline, hagree⟩ := Parse.relexPrefix_eq hp hcut hsmall hroot hpath hin
    have hstatement : ∀ resumeAfter mode rule,
        Machine.statement (a ++ e.insert ++ z) c.focus.span.start resumeAfter mode rule =
          .ok (parseStatementAt (a ++ e.insert ++ z) c.focus.span.start resumeAfter mode rule) := by
      intro resumeAfter mode rule
      rw [hnew] at hsmall ⊢
      rw [hstart]
      exact Machine.statement_eq hsmall resumeAfter mode rule
    simp only [Option.bind_eq_bind, Option.bind_some]
    cases hrule : Parse.ruleAt? c with
    | none => cases Parse.startsStatement c <;> rfl
    | some rule =>
      cases Parse.startsStatement c with
      | false => rfl
      | true =>
        generalize relexPrefix? c (a ++ e.insert ++ z) = q at hagree
        simp only [hline, if_true, Checked.ok_bind]
        cases hagree with
        | none => rfl
        | @some s r h =>
          obtain ⟨s, mode⟩ := s
          obtain ⟨r, mode'⟩ := r
          obtain ⟨_, rfl⟩ := h
          simp only [hstatement, Checked.ok_bind, Option.bind_some]
          cases parseStatementAt (a ++ e.insert ++ z) c.focus.span.start
            ((c.prevSignificant?.map fun n => n.span.stop).getD 0) mode rule <;> rfl

theorem fits_eq {c : Cursor} {fragment : Fragment} (hp : p.Faithful) (hcut : e.Cuts p.text a m z)
    (hsmall : (a ++ e.insert ++ z).byteSize < Checked.limit) (hroot : c.root = p.tree.root)
    (hpath : c.path ≠ []) (hin : c.focus.span.contains e.span = true) :
    fits c fragment (a ++ e.insert ++ z) e.delta =
      .ok (Parse.fitsInPlace c fragment (a ++ e.insert ++ z) e.delta) := by
  have hstop := Parse.shift_stop hp hcut hsmall hroot hpath hin
  have hleaf := Parse.shiftSpan_nextLeaf hp hcut hsmall hroot hpath hin
  obtain ⟨x, old, mid, y, _, hnew, _, hend, hmid⟩ := Parse.exists_middle hp hcut hroot hpath hin
  have hresume : fragment.stop = shiftOffset c.focus.span.stop e.delta →
      ∃ s, Scanner.resume (a ++ e.insert ++ z) fragment.stop = .ok s ∧
        s.Shows (Reader.resume (a ++ e.insert ++ z) fragment.stop) := by
    intro h
    have hsize : fragment.stop = (x ++ mid).byteSize := by
      rw [h, Text.byteSize_append]
      exact shiftOffset_eq (by omega)
    rw [hnew, ← List.append_assoc] at hsmall ⊢
    rw [hsize]
    obtain ⟨s, hs, hshows, _⟩ := Scanner.resume_eq hsmall
    exact ⟨s, hs, hshows⟩
  rw [fits, Parse.fitsInPlace]
  cases c.focus.firstLeaf? with
  | none => rfl
  | some first =>
    cases c.focus.lastLeaf? with
    | none => rfl
    | some last =>
      simp only [hstop, Checked.ok_bind]
      by_cases h : (fragment.stop == shiftOffset c.focus.span.stop e.delta &&
          (fragment.output.events.findSome? Event.tokenKind?).map Kind.lexedAs ==
            some first.kind.lexedAs && Mode.after fragment.lastKind == Mode.after last.kind.lexedAs) = true
      · have heq : fragment.stop = shiftOffset c.focus.span.stop e.delta := by
          rw [Bool.and_eq_true, Bool.and_eq_true, beq_iff_eq] at h
          exact h.1.1
        obtain ⟨s, hs, hshows⟩ := hresume heq
        rw [if_pos h, h, Bool.true_and, hs, Checked.ok_bind]
        exact Scanner.nextMatches_eq hshows hleaf _
      · rw [if_neg h, eq_false_of_ne_true h, Bool.false_and]
        rfl

/-- Puts a new statement in the place of an old one, unless too many cells would be dead. -/
def splice (d : Filed) (text : Text) (δ : Int) (c : Cursor) (fragment : Fragment) :
    Checked (Option Filed) := do
  match c.path.head? with
  | none => return none
  | some k =>
    let (arena, roots) ← Assembly.build d.arena (some (k.id, c.index)) c.focus.span.start
      fragment.output.events
    match roots with
    | [root] =>
      let dead := d.dead + c.focus.size
      if arena.cells.length * d.options.maxDeadPercent < dead * 100 then return none
      else
        let arena ← arena.replaceChild k.id c.index root
        let arena ← arena.moveAround c.outside c.focus.span δ
        let moved ← (d.diagnostics.filter fun x => !c.focus.span.contains x.span).mapM
          (Checked.shiftFrom c.focus.span.stop δ)
        let diagnostics :=
          Diagnostic.arrange d.options.maxErrors (moved ++ fragment.output.diagnostics)
        let new : Filed := ⟨text, arena, d.root, dead, diagnostics, d.options⟩
        let statement ← arena.load arena.cells.length (some k.id) c.index root
        let count ← new.count
        let _ ← Checked.sub count statement.size
        return some new
    | _ => return none

/-- The arena after one statement has given way to another, which is already stored. -/
theorem exists_exchanged {d : Filed} (h : d.Holds p) (hp : p.Faithful) {q : Parse} {c : Cursor} {n : Node}
    (hs : p.Spliced e c n q) (hids : (q.tree.root.descendants.map Node.id).Nodup)
    (hsize : (p.text.byteSize : Int) + e.delta < Checked.limit) {k : Crumb} {ks : List Crumb}
    (hpath : c.path = k :: ks) {arena : Arena} (hgrows : d.arena.Grows arena)
    (hsound : arena.Sound) (hhas : ∀ x ∈ n.entries (some k.id) c.index, arena.Has x)
    (hle : n.size ≤ arena.cells.length) :
    ∃ b b', arena.replaceChild k.id c.index n.id = .ok b ∧
      b.moveAround c.outside c.focus.span e.delta = .ok b' ∧
      b'.load b'.cells.length (some k.id) c.index n.id = .ok n ∧
      b'.cells.length = arena.cells.length ∧ b'.Sound ∧ ∀ x ∈ q.tree.entries, b'.Has x := by
  have hstored : ∀ x ∈ Crumb.entriesBefore c.path c.focus.id ++ Crumb.entriesAfter c.path,
      arena.Has x := fun x hx => hgrows.has (h.entries x (hs.mem_entries hx))
  have hnodup : c.outside.Nodup := by
    have hids := hp.ids
    rw [← hs.root] at hids
    exact Cursor.nodup_outside (Cursor.root_ids c.path c.focus ▸ hids)
  rw [c.outside_eq c.focus.id] at hnodup
  have hfresh : ∀ x ∈ n.entries (some k.id) c.index, x.id ≠ k.id := by
    intro x hx hid
    have hnew := hids
    rw [hs.tree, Cursor.splice_ids, ← Node.map_id_entries (some k.id) c.index] at hnew
    refine Cursor.not_mem_outside hnew (List.mem_map_of_mem hx) ?_
    rw [hid, c.outside_eq n.id, hpath]
    exact List.mem_map_of_mem (a := k.entry ks n.id) (by simp [Crumb.entriesBefore])
  have hindex : c.index = k.before.length := by rw [Cursor.index, hpath]
  simp only [hpath, Crumb.entriesBefore, List.append_assoc, List.cons_append] at hstored hnodup
  rw [List.map_append, List.map_cons, List.nodup_middle, List.nodup_cons, ← List.map_append] at hnodup
  have hparent : arena.Has (k.entry ks c.focus.id) := hstored _ (by simp)
  have hlt : c.index < (k.entry ks c.focus.id).children.length := by simp [Crumb.entry, hindex]
  obtain ⟨b, hb, hcells, hbsound, hbparent, hothers⟩ := Arena.replaceChild_eq hsound hparent hlt n.id
  have hentry : { k.entry ks c.focus.id with
      children := (k.entry ks c.focus.id).children.set c.index n.id } = k.entry ks n.id := by
    simp [Crumb.entry, hindex]
  rw [hentry] at hbparent
  -- only the entry of the node above has changed
  have hold : ∀ x ∈ Crumb.entriesBefore c.path n.id ++ Crumb.entriesAfter c.path, b.Has x := by
    intro x hx
    simp only [hpath, Crumb.entriesBefore, List.append_assoc, List.cons_append, List.mem_append,
      List.mem_cons] at hx hstored
    rw [or_left_comm] at hx
    rcases hx with rfl | hx
    · exact hbparent
    · refine hothers x (fun hid => hnodup.1 ?_) (hstored x (by tauto))
      rw [← hid]
      exact List.mem_map_of_mem (by simpa using hx)
  have hnew : ∀ x ∈ n.entries (c.path.head?.map Crumb.id) c.index, b.Has x := by
    rw [hpath]
    exact fun x hx => hothers x (hfresh x hx) (hhas x hx)
  obtain ⟨b', hmove, hlength, hsound', hentries⟩ := hs.moveAround_eq hp hids hsize hold hnew
  have hlength' : b'.cells.length = arena.cells.length := hlength.trans (congrArg List.length hcells)
  refine ⟨b, b', hb, hmove, Arena.load_eq (fun x hx => hentries x ?_) (hlength' ▸ hle), hlength',
    hsound' hbsound, hentries⟩
  rw [hs.entries_eq hp, hpath]
  exact List.mem_append_left _ (List.mem_append_right _ hx)

/-- The nodes of a new statement are stored without fault. -/
theorem exists_stored {d : Filed} {c : Cursor} {rule : StatementRule} {s : Reader} {mode : Mode}
    {fragment : Fragment} (h : d.Holds p) (hp : p.Faithful) (hcut : e.Cuts p.text a m z)
    (hR : p.Replaced e (a ++ e.insert ++ z) c rule s mode fragment) (parent : Nat) :
    ∃ g ns arena, Node.Built g p.tree.allocated c.focus.span.start fragment.stop ns ∧
      (fragment.stop : Int) = c.focus.span.stop + e.delta ∧
      Node.ofEvents p.tree.allocated c.focus.span.start fragment.output.events =
        (ns, p.tree.allocated + (ns.map Node.size).sum) ∧
      Assembly.build d.arena (some (parent, c.index)) c.focus.span.start fragment.output.events =
        .ok (arena, ns.map Node.id) ∧
      d.arena.Grows arena ∧ arena.cells.length = p.tree.allocated + (ns.map Node.size).sum ∧
      ∀ n ∈ ns, ∀ x ∈ n.entries (some parent) c.index, arena.Has x := by
  obtain ⟨hbelow, hin⟩ := hR.below hp
  have hroot := Cursor.ancestor_root hR.mem
  obtain ⟨f, A, M, B, r₁, r₂, m₁, m₂, mid, he, hplaced, hsite, hnew, hmid⟩ :=
    hp.exists_edited hcut hroot hbelow hin
  obtain ⟨hstop, ⟨g, hg, hproper, hadjoin⟩, _⟩ := hR.exchange hplaced he hsite hnew hmid
  obtain ⟨ns, hbuilt, hns⟩ :=
    Node.ofEvents_eventsAll hproper hadjoin p.tree.allocated c.focus.span.start
  obtain ⟨arena, hbuild, hgrows, hlength, hhas⟩ := Assembly.build_eq hbuilt.fitted
    (h.length ▸ hbuilt.numbered) parent c.index c.focus.span.start
  rw [hbuilt.skeletons, ← hg] at hbuild
  rw [← hg] at hns
  exact ⟨g, ns, arena, hbuilt, hstop, hns, hbuild, hgrows, h.length ▸ hlength, hhas⟩

theorem reparseStatement_of_fits {text : Text} {c : Cursor} {fragment : Fragment}
    (hf : p.statementFragment? e text = some (c, fragment))
    (hfits : Parse.fitsInPlace c fragment text e.delta = true) :
    (p.reparseStatement e text).1 = (p.spliceStatement e text c fragment).1 := by
  simp only [Parse.reparseStatement, hf, hfits, if_true]

/-- The answer with a new statement, if not too many entries are dead. -/
theorem exists_answer {text : Text} {c : Cursor} {fragment : Fragment} {n : Node} {allocated : Nat}
    (hf : p.statementFragment? e text = some (c, fragment))
    (hfits : Parse.fitsInPlace c fragment text e.delta = true)
    (hn : Node.ofEvents p.tree.allocated c.focus.span.start fragment.output.events = ([n], allocated))
    (hdead : ¬ allocated * p.options.maxDeadPercent < (p.tree.dead + c.focus.size) * 100) :
    ∃ answer, (p.reparseStatement e text).1 = some answer ∧ answer.parse =
      ⟨⟨text, c.splice n e.delta, allocated, p.tree.dead + c.focus.size⟩,
        Diagnostic.arrange p.options.maxErrors
          ((p.diagnostics.filter fun d => !c.focus.span.contains d.span).map
            (Diagnostic.shiftFrom c.focus.span.stop e.delta) ++ fragment.output.diagnostics),
        p.options⟩ := by
  rw [reparseStatement_of_fits hf hfits, Parse.spliceStatement, hn]
  simp only [if_neg hdead]
  exact ⟨_, rfl, rfl⟩

/-- **A statement is put in place of another without fault.** -/
theorem splice_eq {d : Filed} {c : Cursor} {fragment : Fragment} (h : d.Holds p) (hp : p.Faithful)
    (ha : p.Accounted) (hcap : p.capReached = false) (hcut : e.Cuts p.text a m z)
    (hsmall : (a ++ e.insert ++ z).byteSize < Checked.limit)
    (hf : p.statementFragment? e (a ++ e.insert ++ z) = some (c, fragment))
    (hfits : Parse.fitsInPlace c fragment (a ++ e.insert ++ z) e.delta = true) :
    ∃ o, d.splice (a ++ e.insert ++ z) e.delta c fragment = .ok o ∧
      Agree o (p.reparseStatement e (a ++ e.insert ++ z)).1 := by
  obtain ⟨_, rule, s, mode, hR⟩ := Parse.statementFragment?_replaced hf hfits
  obtain ⟨hbelow, hin⟩ := hR.below hp
  have hroot := Cursor.ancestor_root hR.mem
  obtain ⟨k, ks, hpath⟩ := List.exists_cons_of_ne_nil hbelow
  obtain ⟨g, ns, arena, hbuilt, hstop, hns, hbuild, hgrows, hlength, hhas⟩ :=
    exists_stored h hp hcut hR k.id
  have hhead : c.path.head? = some k := by rw [hpath, List.head?_cons]
  rw [splice, hhead]
  simp only [hbuild, Checked.ok_bind]
  match ns with
  | [] =>
    rw [reparseStatement_of_fits hf hfits, Parse.spliceStatement, hns]
    exact ⟨none, rfl, .none⟩
  | _ :: _ :: _ =>
    rw [reparseStatement_of_fits hf hfits, Parse.spliceStatement, hns]
    exact ⟨none, rfl, .none⟩
  | [n] =>
    simp only [List.map_cons, List.map_nil, List.sum_cons, List.sum_nil, Nat.add_zero] at hns hlength
    simp only [List.map_cons, List.map_nil, h.dead, h.options, hlength]
    split_ifs with hdead
    · rw [reparseStatement_of_fits hf hfits, Parse.spliceStatement, hns]
      simp only [if_pos hdead]
      exact ⟨none, rfl, .none⟩
    · obtain ⟨answer, hanswer, hparse⟩ := exists_answer hf hfits hns hdead
      have hspan := hbuilt.spans
      have hs : p.Spliced e c n answer.parse := ⟨hroot, hbelow, hin, hbuilt.fitted n List.mem_cons_self,
        hspan.1, hstop ▸ congrArg Nat.cast hspan.2.2, by rw [hparse]⟩
      obtain ⟨hfaithful, _, _⟩ := Parse.reparseStatement_faithful hp hcap hcut hanswer
      obtain ⟨b, b', hb, hmove, hload, hlength', hsound, hentries⟩ := exists_exchanged h hp hs hfaithful.ids
        (Parse.size_lt hp hcut hroot hbelow hin hsmall) hpath hgrows (Assembly.build_sound h.sound hbuild)
        (hhas n List.mem_cons_self) (by omega)
      have hkept : ∀ x ∈ p.diagnostics.filter fun x => !c.focus.span.contains x.span, x ∈ p.diagnostics :=
        fun x hx => List.mem_of_mem_filter hx
      have hdiagnostics := Parse.shiftFrom_eq hp hcut hsmall hroot hbelow hin hkept
      have hsize := c.size_splice n e.delta
      have hle := c.size_le_splice n e.delta
      have hentries' := ha.entries
      rw [hroot] at hsize
      rw [hanswer]
      refine ⟨some ⟨answer.parse.text, b', d.root, answer.parse.tree.dead, answer.parse.diagnostics,
        answer.parse.options⟩, ?_, .some ⟨rfl, ?_, rfl, rfl, rfl, ?_, hsound, hentries⟩⟩
      · rw [hparse, hb, Checked.ok_bind, hmove, Checked.ok_bind, h.diagnostics, hdiagnostics, Checked.ok_bind,
          hload, Checked.ok_bind, count]
        simp only [hlength', hlength]
        rw [Checked.sub_eq (by omega), Checked.ok_bind, Checked.sub_eq (by omega)]
        rfl
      · rw [h.root, hs.tree, Cursor.splice_id hbelow, hroot]
      · rw [hlength', hlength, hparse]

/-- Answers an edit inside one statement, if that can be done. -/
def reparseStatement (d : Filed) (p : Parse) (e : Edit) (δ : Int) (text : Text) :
    Checked (Option Filed) := do
  match ← fragment p e text with
  | none => return none
  | some (c, fragment) =>
    if ← fits c fragment text δ then d.splice text δ c fragment else return none

/-- **An edit inside one statement is answered without fault.** -/
theorem reparseStatement_eq {d : Filed} (h : d.Holds p) (hp : p.Faithful) (ha : p.Accounted)
    (hcap : p.capReached = false) (hcut : e.Cuts p.text a m z)
    (hsmall : (a ++ e.insert ++ z).byteSize < Checked.limit) :
    ∃ o, d.reparseStatement p e e.delta (a ++ e.insert ++ z) = .ok o ∧
      Agree o (p.reparseStatement e (a ++ e.insert ++ z)).1 := by
  rw [reparseStatement, fragment_eq hp hcut hsmall, Checked.ok_bind]
  cases hf : p.statementFragment? e (a ++ e.insert ++ z) with
  | none =>
    rw [Parse.reparseStatement, hf]
    exact ⟨none, rfl, .none⟩
  | some r =>
    obtain ⟨c, fragment⟩ := r
    have hfind := Parse.statementFragment?_find? hf
    have hmem := List.mem_of_find?_eq_some hfind
    obtain ⟨hbelow, hin⟩ := hp.below_of_outer hmem (List.find?_some hfind)
    simp only [fits_eq hp hcut hsmall (Cursor.ancestor_root hmem) hbelow hin, Checked.ok_bind]
    cases hfits : Parse.fitsInPlace c fragment (a ++ e.insert ++ z) e.delta with
    | true => exact splice_eq h hp ha hcap hcut hsmall hf hfits
    | false =>
      simp only [Parse.reparseStatement, hf, hfits]
      exact ⟨none, rfl, .none⟩

end Filed

end LpFormat
