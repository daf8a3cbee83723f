import LpFormat.Proofs.Checked.Change
import LpFormat.Proofs.Checked.Reading

/-!
# Reading around an edit

The old leaves on the line of an edit are read again, and so is the token after it. Offsets of the old
tree are used in the new text here: every place where reading starts and every moved span is tested.

* `Checked.delta`, `Checked.apply`: the text after an edit, `Checked.apply_eq`;
* `Scanner.relexLeaves`, `Scanner.relexPrefix`: the line up to a node; `Scanner.Agree`: what is found
  by testing and without, **`Scanner.relexPrefix_eq`**;
* `Scanner.nextMatches`: the token after a node, **`Scanner.nextMatches_eq`**;
* `Checked.shiftFrom`: diagnostics that move, `Checked.shiftFrom_eq`.
-/

namespace LpFormat

/-! ## The edited text -/

namespace Checked

/-- The change in length. -/
def delta (e : Edit) : Checked Int := do
  let removed ← sub e.span.stop e.span.start
  return e.insert.byteSize - removed

/-- The edited text, or why the edit does not apply. -/
def apply (e : Edit) (text : Text) : Checked (Except EditError Text) := do
  let size ← offset text.byteSize
  match e.error? text with
  | some error => return .error error
  | none =>
    let before ← cut text ⟨0, e.span.start⟩
    let after ← cut text ⟨e.span.stop, size⟩
    return .ok (before ++ e.insert ++ after)

theorem delta_eq {e : Edit} (h : e.span.start ≤ e.span.stop) : delta e = .ok e.delta := by
  rw [delta, sub_eq h]
  rfl

/-- An edit is applied, or refused, without fault. -/
theorem apply_eq {e : Edit} (he : e.span.start ≤ e.span.stop) {text : Text} (h : text.byteSize < limit) :
    apply e text = .ok (e.apply text) := by
  rw [apply, offset_eq h, ok_bind]
  cases herror : e.error? text with
  | some error =>
    rw [Edit.apply, herror]
    rfl
  | none =>
    have happly : e.apply text =
        .ok (text.takeBytes e.span.start ++ e.insert ++ text.dropBytes e.span.stop) := by
      rw [Edit.apply, herror]
    obtain ⟨a, m, z, hcut, hnew⟩ := (Edit.apply_eq_ok_iff he).1 happly
    have hsize : text.byteSize = e.span.stop + z.byteSize := by
      rw [hcut.eq, hcut.stop, Text.byteSize_append, Text.byteSize_append]
    have hbefore : cut text ⟨0, e.span.start⟩ = .ok a :=
      cut_of_eq (a := []) (c := m ++ z) (by rw [hcut.eq, List.append_assoc]; rfl) rfl
        (by rw [hcut.start, Text.byteSize_nil, Nat.zero_add])
    have hafter : cut text ⟨e.span.stop, text.byteSize⟩ = .ok z :=
      cut_of_eq (a := a ++ m) (c := []) (by rw [hcut.eq, List.append_nil])
        (by rw [hcut.stop, Text.byteSize_append]) (by rw [hsize, hcut.stop, Text.byteSize_append])
    rw [happly, hnew]
    simp only [hbefore, hafter, ok_bind]
    rfl

/-! ## Diagnostics -/

/-- Moves a diagnostic that starts at or after an offset. -/
def shiftFrom (stop : Nat) (δ : Int) (d : Diagnostic) : Checked Diagnostic :=
  if stop ≤ d.span.start then do
    let span ← shiftSpan d.span δ
    return { d with span }
  else .ok d

theorem shiftFrom_eq {stop : Nat} {δ : Int} (hstop : 0 ≤ (stop : Int) + δ) {d : Diagnostic}
    (hle : d.span.start ≤ d.span.stop) (hlimit : (d.span.stop : Int) + δ < limit) :
    shiftFrom stop δ d = .ok (d.shiftFrom stop δ) := by
  rw [shiftFrom, Diagnostic.shiftFrom]
  split_ifs with h
  · have h₁ : 0 ≤ (d.span.start : Int) + δ := by omega
    have h₂ : 0 ≤ (d.span.stop : Int) + δ := by omega
    rw [shiftSpan_eq (t := ⟨(d.span.start + δ).toNat, (d.span.stop + δ).toNat⟩)
      (Int.toNat_of_nonneg h₁) (Int.toNat_of_nonneg h₂) (by simp only; omega) (by simp only; omega)]
    rfl
  · rfl

end Checked

/-! ## The line before a node -/

namespace Scanner

/-- Reads tokens again and compares them with leaves. -/
def relexLeaves (s : Scanner) (mode : Mode) : List Node → Checked (Option (Scanner × Mode))
  | [] => .ok (some (s, mode))
  | leaf :: leaves => do
    let (token, s') ← s.next mode
    if token.kind = leaf.kind.lexedAs ∧ token.span = leaf.span then
      s'.relexLeaves (mode.next token.kind) leaves
    else return none

/-- Reads a new text from the start of the line of a node up to the node. -/
def relexPrefix (c : Cursor) (text : Text) : Checked (Option (Scanner × Mode)) := do
  let before := c.leavesBefore
  let line := (before.takeWhile fun n => !endsLookahead n).reverse
  let mode :=
    match (before.dropWhile fun n => !endsLookahead n).find? fun n => !n.kind.isTrivia with
    | some n => Mode.after n.kind.lexedAs
    | none => .statementStart
  let s ← resume text (line.head?.getD c.focus).span.start
  s.relexLeaves mode line

/-- What is found by testing every step, and what is found without. -/
def Agree : Option (Scanner × Mode) → Option (Reader × Mode) → Prop :=
  Option.Rel fun s r => s.1.Shows r.1 ∧ s.2 = r.2

theorem relexLeaves_eq {s : Scanner} {r : Reader} (h : s.Shows r) (mode : Mode) (leaves : List Node) :
    ∃ o, s.relexLeaves mode leaves = .ok o ∧ Agree o (relexLeaves? r mode leaves) := by
  induction leaves generalizing s r mode with
  | nil => exact ⟨_, rfl, .some ⟨h, rfl⟩⟩
  | cons leaf leaves ih =>
    obtain ⟨s', hnext, hshows, _⟩ := next_eq h mode
    rw [relexLeaves, hnext, Checked.ok_bind]
    change ∃ o, _ ∧ Agree o (if (r.next mode).1.kind = leaf.kind.lexedAs ∧
      (r.next mode).1.span = leaf.span then
        relexLeaves? (r.next mode).2 (mode.next (r.next mode).1.kind) leaves else none)
    simp only
    split_ifs
    · exact ih hshows _
    · exact ⟨none, rfl, .none⟩

/-- **The line before a node is read again without fault**, in every text that has the tokens before
the node at its beginning. -/
theorem relexPrefix_eq {c : Cursor} {old y : Text} {A : List Token} {r : Reader} {m : Mode}
    (hA : Reader.Reads (.ofText old) .statementStart A r m)
    (hleaves : List.Forall₂ Node.Holds c.leavesBefore A.reverse)
    (hfocus : c.focus.span.start = r.position.offset)
    (hsmall : (Reader.Reads.textOf A ++ y).byteSize < Checked.limit) :
    ∃ o, relexPrefix c (Reader.Reads.textOf A ++ y) = .ok o ∧
      Agree o (relexPrefix? c (Reader.Reads.textOf A ++ y)) := by
  obtain ⟨hline, _⟩ := span_of_forall₂ (fun _ _ hl => not_endsLookahead_eq hl) hleaves
  obtain ⟨A₁, A₂, rfl, hA₂⟩ : ∃ A₁ A₂, A = A₁ ++ A₂ ∧ A₂ = (A.reverse.takeWhile Token.isOpen).reverse :=
    ⟨(A.reverse.dropWhile Token.isOpen).reverse, _, by
      rw [← List.reverse_append, List.takeWhile_append_dropWhile, List.reverse_reverse], rfl⟩
  obtain ⟨r₁, m₁, h₁, h₂⟩ := hA.split
  rw [← List.forall₂_reverse_iff, ← hA₂] at hline
  have hstart := lineStart_eq h₂ hline hfocus
  have hoffset : r₁.position.offset = (Reader.Reads.textOf A₁).byteSize :=
    h₁.offset_eq.trans (Nat.zero_add _)
  have htext : Reader.Reads.textOf (A₁ ++ A₂) ++ y =
      Reader.Reads.textOf A₁ ++ (Reader.Reads.textOf A₂ ++ y) := by
    rw [Reader.Reads.textOf, List.flatMap_append, List.append_assoc]
    rfl
  rw [htext] at hsmall ⊢
  obtain ⟨s, hresume, hshows, _⟩ := resume_eq hsmall
  rw [relexPrefix, relexPrefix?, hstart, hoffset, hresume, Checked.ok_bind]
  exact relexLeaves_eq hshows _ _

/-! ## The token after a node -/

/-- Whether the next token is the old leaf after a node, moved. -/
def nextMatches (s : Scanner) (c : Cursor) (mode : Mode) (δ : Int) : Checked Bool := do
  let (token, _) ← s.next mode
  match c.nextLeaf? with
  | some leaf =>
    let span ← Checked.shiftSpan leaf.span δ
    return token.kind == leaf.kind.lexedAs && token.span == span
  | none => return token.kind == .eof

/-- **The token after a node is compared without fault.** -/
theorem nextMatches_eq {s : Scanner} {r : Reader} (h : s.Shows r) {c : Cursor} {δ : Int}
    (hleaf : ∀ leaf ∈ c.nextLeaf?, Checked.shiftSpan leaf.span δ = .ok (leaf.span.shift δ))
    (mode : Mode) : s.nextMatches c mode δ = .ok (LpFormat.nextMatches c r mode δ) := by
  obtain ⟨s', hnext, _⟩ := next_eq h mode
  rw [nextMatches, hnext, Checked.ok_bind, LpFormat.nextMatches]
  cases hnextLeaf : c.nextLeaf? with
  | none => rfl
  | some leaf =>
    simp only [hleaf leaf hnextLeaf, Checked.ok_bind]
    rfl

end Scanner

theorem Crumb.exists_entryAfter {ks : List Crumb} {k : Crumb} (hk : k ∈ ks) {n : Node} (hn : n ∈ k.after) :
    ∃ x ∈ entriesAfter ks, x.span = n.span := by
  induction ks with
  | nil => cases hk
  | cons k' ks ih =>
    simp only [entriesAfter, List.mem_append]
    rcases List.mem_cons.1 hk with rfl | hk
    · obtain ⟨xs, ys, hxs⟩ := List.append_of_mem hn
      refine ⟨⟨n.id, n.kind, n.span, some k.id, k.before.length + 1 + xs.length, n.children.map Node.id⟩,
        .inl ?_, rfl⟩
      rw [hxs, Node.entriesAll_append, Node.entriesAll, Node.entries_eq]
      simp
    · obtain ⟨x, hx, hspan⟩ := ih hk
      exact ⟨x, .inr hx, hspan⟩

/-- The leaf after a node lies behind it, inside the text. -/
theorem Cursor.Placed.nextLeaf? {c : Cursor} {f : List Skeleton} {size : Nat} (h : c.Placed f size)
    {leaf : Node} (hleaf : c.nextLeaf? = some leaf) : c.focus.span.stop ≤ leaf.span.start ∧
      leaf.span.start ≤ leaf.span.stop ∧ leaf.span.stop ≤ size := by
  have hroot := h.rooted
  obtain ⟨k, hk, hleaf⟩ := List.exists_of_findSome?_eq_some hleaf
  obtain ⟨n, hn, hleaf⟩ := List.exists_of_findSome?_eq_some hleaf
  have hkind : c.root.kind.isNode = true := by
    rw [hroot.kind]
    rfl
  obtain ⟨hfit, hstart⟩ := (beside_of_root (n := c.focus) hroot.tiled hkind
    (contains_iff.2 ⟨Nat.le_refl _, Nat.le_refl _⟩) k hk).after n hn
  rw [hfit.firstLeaf?_eq] at hleaf
  have hin := hfit.adjoin_leaves.mem (List.mem_map_of_mem (List.mem_of_head? hleaf))
  obtain ⟨x, hx, hspan⟩ := Crumb.exists_entryAfter hk hn
  have hmem : x ∈ c.root.entries none 0 := by
    rw [entries_root]
    exact List.mem_append_right _ hx
  have hstop := hroot.stop_le hmem
  rw [hspan] at hstop
  omega

end LpFormat
