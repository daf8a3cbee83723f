import LpFormat.Proofs.Parsing.Parallel
import LpFormat.Proofs.Token.Reading
import LpFormat.Reparse

/-!
# Reading a line again up to a node

When a text changes from the start of a node on, reading the line of the node again from its start
tells whether the tokens in front of the node stay as they are. Nothing before that line can change:
a line end or a closed comment stands in between.

* `Node.Holds`: a leaf and the token it was made of;
* `relexLeaves?_reads`: leaves that are found again;
* **`relexPrefix?_reads`**: the tokens of the new text up to the node are the old ones.
-/

namespace LpFormat

/-- A leaf is made of a token. -/
structure Node.Holds (leaf : Node) (t : Token) : Prop where
  kind : leaf.kind.lexedAs = t.kind
  span : leaf.span = t.span

theorem Node.Holds.isTrivia {leaf : Node} {t : Token} (h : leaf.Holds t) :
    leaf.kind.isTrivia = t.kind.isTrivia := by
  rw [← h.kind, Kind.isTrivia_lexedAs]

theorem Token.Moved.trans {t u v : Token} (h : t.Moved 0 u) (h' : u.Moved 0 v) : t.Moved 0 v :=
  ⟨h'.kind.trans h.kind, h'.text.trans h.text, by rw [h'.start, h.start]; omega,
    by rw [h'.stop, h.stop]; omega⟩

theorem Token.Moved.trans_all {ts us vs : List Token} (h : List.Forall₂ (Moved 0) ts us)
    (h' : List.Forall₂ (Moved 0) us vs) : List.Forall₂ (Moved 0) ts vs := by
  induction h generalizing vs with
  | nil => exact h'
  | cons ht _ ih =>
    cases h' with
    | cons hu hus => exact .cons (ht.trans hu) (ih hus)

theorem Token.Moved.span_eq {t u : Token} (h : t.Moved 0 u) : u.span = t.span := by
  rw [h.span]
  exact Span.shift_eq (Int.add_zero _).symm (Int.add_zero _).symm

theorem Token.Moved.refl (t : Token) : t.Moved 0 t :=
  ⟨rfl, rfl, (Int.add_zero _).symm, (Int.add_zero _).symm⟩

/-- Tokens of the same kinds lead to the same mode. -/
theorem Reader.Reads.mode_unique {δ : Int} {r r' s s' : Reader} {m m' n' : Mode} {ts us : List Token}
    (h : Reads r m ts r' m') (h' : Reads s m us s' n') (hmoved : List.Forall₂ (Token.Moved δ) ts us) :
    n' = m' := by
  rw [h.mode_eq, h'.mode_eq]
  clear h h'
  induction hmoved generalizing m with
  | nil => rfl
  | cons ht _ ih =>
    rw [List.foldl_cons, List.foldl_cons, ht.kind]
    exact ih

theorem find?_of_forall₂ {α β : Type} {R : α → β → Prop} {p : α → Bool} {q : β → Bool}
    (hpq : ∀ a b, R a b → p a = q b) {as : List α} {bs : List β} (h : List.Forall₂ R as bs) :
    as.find? p = none ∧ bs.find? q = none ∨
      ∃ a b, as.find? p = some a ∧ bs.find? q = some b ∧ R a b := by
  induction h with
  | nil => exact .inl ⟨rfl, rfl⟩
  | @cons a b as bs hab _ ih =>
    rw [List.find?_cons, List.find?_cons, ← hpq a b hab]
    cases p a with
    | true => exact .inr ⟨a, b, rfl, rfl, hab⟩
    | false => exact ih

theorem span_of_forall₂ {α β : Type} {R : α → β → Prop} {p : α → Bool} {q : β → Bool}
    (hpq : ∀ a b, R a b → p a = q b) {as : List α} {bs : List β} (h : List.Forall₂ R as bs) :
    List.Forall₂ R (as.takeWhile p) (bs.takeWhile q) ∧
      List.Forall₂ R (as.dropWhile p) (bs.dropWhile q) := by
  induction h with
  | nil => exact ⟨.nil, .nil⟩
  | @cons a b as bs hab h ih =>
    rw [List.takeWhile_cons, List.takeWhile_cons, List.dropWhile_cons, List.dropWhile_cons,
      ← hpq a b hab]
    cases p a with
    | true => exact ⟨.cons hab ih.1, ih.2⟩
    | false => exact ⟨.nil, .cons hab h⟩

/-- A token that is no line end does not begin with a line feed. -/
theorem head?_ne_lineFeed {mode : Mode} {r r' : Reader} {t : Token} (h : r.Yields mode t r')
    (hk : t.kind ≠ .newline) : r.rest.head? ≠ some '\n' := by
  intro hhead
  obtain ⟨v, hv⟩ := List.head?_eq_some_iff.1 hhead
  have hscan := h.scan
  rw [hv, Lexeme.scan_lineFeed, Prod.mk.injEq] at hscan
  exact hk hscan.1.symm

/-- Leaves that are found again in front of a text are tokens of the same kinds and texts. -/
theorem relexLeaves?_reads {leaves : List Node} {ts : List Token}
    (hts : List.Forall₂ Node.Holds leaves ts)
    (hsized : ∀ t ∈ ts, t.text ≠ [] ∧ t.span.stop = t.span.start + t.text.byteSize) {y : Text}
    {r s : Reader} {mode mode' : Mode} (hr : r.rest = Reader.Reads.textOf ts ++ y)
    (h : relexLeaves? r mode leaves = some (s, mode')) :
    ∃ us, Reader.Reads r mode us s mode' ∧ List.Forall₂ (Token.Moved 0) ts us ∧ s.rest = y := by
  induction hts generalizing r mode with
  | nil =>
    cases h
    exact ⟨[], .nil _ _, .nil, hr⟩
  | @cons leaf t leaves ts ht _ ih =>
    obtain ⟨⟨hne, hsize⟩, hsized⟩ := List.forall_mem_cons.1 hsized
    change (if (r.next mode).1.kind = leaf.kind.lexedAs ∧ (r.next mode).1.span = leaf.span then
      relexLeaves? (r.next mode).2 (mode.next (r.next mode).1.kind) leaves else none) = _ at h
    split_ifs at h with hsame
    rw [ht.kind, ht.span] at hsame
    rw [Reader.Reads.textOf, List.flatMap_cons, List.append_assoc] at hr
    have hrest : r.rest ≠ [] := by
      rw [hr]
      exact fun h => hne (List.append_eq_nil_iff.1 h).1
    have hy := Reader.yields_next mode hrest
    have hbytes : (r.next mode).1.text.byteSize = t.text.byteSize := by
      have := hy.stop
      rw [← hy.start, hsame.2, hsize] at this
      omega
    obtain ⟨htext, hrest'⟩ := Text.append_inj_of_byteSize (hy.rest.symm.trans hr) hbytes
    obtain ⟨us, hus, hall, hs⟩ := ih hsized hrest' h
    refine ⟨_, .cons hrest hus, .cons ⟨hsame.1, htext, ?_, ?_⟩ hall, hs⟩
    · rw [hsame.2, Int.add_zero]
    · rw [hsame.2, Int.add_zero]

/-! ## What precedes the line -/

section Before

variable {c : Cursor} {A₁ A₂ : List Token} {x y : Text} {r₀ r₁ r : Reader} {m₀ m₁ m : Mode}

/-- The tokens before the line of a node, or before the last comment on it, end with a line end or a
closed comment. -/
theorem sealedFrom_line (h₁ : Reader.Reads r₀ m₀ A₁ r₁ m₁) (h₂ : Reader.Reads r₁ m₁ A₂ r m)
    (hr : r.rest = x) (hx : x ≠ []) (hy : y.head? ≠ some '\n')
    (hends : ∀ t ∈ A₁.getLast?, t.kind = .newline ∨ t.kind = .blockComment)
    (hline : ∀ t ∈ A₂, t.kind ≠ .newline) :
    Reader.SealedFrom A₁ (Reader.Reads.textOf A₂ ++ y) := by
  intro t ht
  obtain ⟨hne, mode, hscan⟩ := h₁.scan_last t ht
  have hrest := h₂.rest_eq
  rw [hr] at hrest
  rcases hends t ht with hk | hk
  · rw [hk] at hscan
    refine Lexeme.seals_of_newline hscan hne fun _ => ?_
    cases h₂ with
    | nil => exact hy
    | cons hne₁ h₂ =>
      -- the line begins with a token that is no line end
      have hyield := Reader.yields_next m₁ hne₁
      have hhead := head?_ne_lineFeed hyield (hline _ List.mem_cons_self)
      obtain ⟨ch, cs, hcs⟩ := List.exists_cons_of_ne_nil hyield.text_ne
      rw [hyield.rest, hcs] at hhead
      rw [Reader.Reads.textOf, List.flatMap_cons, hcs]
      exact hhead
  · rw [hk] at hscan
    refine Lexeme.seals_of_blockComment hscan hne ?_ _
    rw [hrest]
    exact fun h => hx (List.append_eq_nil_iff.1 h).2

end Before

/-- Whether a token does not keep those before it from looking ahead. -/
def Token.isOpen (t : Token) : Bool := !(t.kind == .newline || t.kind == .blockComment)

theorem not_endsLookahead_eq {leaf : Node} {t : Token} (h : leaf.Holds t) :
    (!endsLookahead leaf) = t.isOpen := by
  rw [endsLookahead, Token.isOpen, ← h.kind, Kind.beq_lexedAs rfl, Kind.beq_lexedAs rfl]

/-- The mode at the start of a line. -/
theorem lineMode_eq {leaves : List Node} {A : List Token} {r r' : Reader} {m : Mode}
    (h : Reader.Reads r .statementStart A r' m) (hA : List.Forall₂ Node.Holds leaves A.reverse) :
    (match leaves.find? fun n => !n.kind.isTrivia with
      | some n => Mode.after n.kind.lexedAs
      | none => .statementStart) = m := by
  rw [h.mode_eq_after]
  rcases find?_of_forall₂ (fun leaf t hl => congrArg not hl.isTrivia) hA with
    ⟨h₁, h₂⟩ | ⟨leaf, t, h₁, h₂, hl⟩
  · rw [h₁, h₂]
  · rw [h₁, h₂]
    exact congrArg Mode.after hl.kind

/-- The offset at which a line starts. -/
theorem lineStart_eq {line : List Node} {A : List Token} {r r' : Reader} {m m' : Mode} {focus : Node}
    (h : Reader.Reads r m A r' m') (hA : List.Forall₂ Node.Holds line A)
    (hfocus : focus.span.start = r'.position.offset) :
    (line.head?.getD focus).span.start = r.position.offset := by
  cases hA with
  | nil =>
    cases h
    exact hfocus
  | cons hl _ =>
    cases h with
    | cons hne _ =>
      rw [List.head?_cons, Option.getD_some, hl.span]
      exact (Reader.yields_next m hne).start

/-- **The tokens of the new text up to a node are the old ones**, if reading the line of the node
again gives the old leaves. -/
theorem relexPrefix?_reads {c : Cursor} {pre x y : Text} {A : List Token} {r s : Reader}
    {m mode : Mode} (hA : Reader.Reads (.ofText (pre ++ x)) .statementStart A r m)
    (hr : r.rest = x) (hleaves : List.Forall₂ Node.Holds c.leavesBefore A.reverse)
    (hfocus : c.focus.span.start = pre.byteSize) (hx : x ≠ [])
    (hy : s.rest = y → y.head? ≠ some '\n')
    (h : relexPrefix? c (pre ++ y) = some (s, mode)) :
    ∃ A' r', Reader.Reads (.ofText (pre ++ y)) .statementStart A' r' mode ∧ r'.rest = y ∧
      s.rest = y ∧ s.position.offset = r'.position.offset ∧
      List.Forall₂ (Token.Moved 0) A A' := by
  obtain ⟨hline, hbefore⟩ := span_of_forall₂ (fun _ _ hl => not_endsLookahead_eq hl) hleaves
  obtain ⟨A₁, hA₁⟩ : ∃ A₁, A₁ = (A.reverse.dropWhile Token.isOpen).reverse := ⟨_, rfl⟩
  obtain ⟨A₂, hA₂⟩ : ∃ A₂, A₂ = (A.reverse.takeWhile Token.isOpen).reverse := ⟨_, rfl⟩
  have hsplit : A = A₁ ++ A₂ := by
    rw [hA₁, hA₂, ← List.reverse_append, List.takeWhile_append_dropWhile, List.reverse_reverse]
  rw [hsplit] at hA
  obtain ⟨r₁, m₁, h₁, h₂⟩ := hA.split
  have htext : pre = Reader.Reads.textOf A₁ ++ Reader.Reads.textOf A₂ := by
    have := hA.rest_eq
    rw [hr, Reader.Reads.textOf, List.flatMap_append] at this
    exact List.append_cancel_right this
  have hoff₁ : r₁.position.offset = (Reader.Reads.textOf A₁).byteSize :=
    h₁.offset_eq.trans (Nat.zero_add _)
  have hoff : r.position.offset = pre.byteSize := by
    rw [h₂.offset_eq, hoff₁, htext, Text.byteSize_append]
  -- the line itself is read again
  have hline' : List.Forall₂ Node.Holds
      (c.leavesBefore.takeWhile fun n => !endsLookahead n).reverse A₂ := by
    rw [hA₂]
    exact List.forall₂_reverse_iff.2 hline
  have hmode := lineMode_eq h₁ (by rwa [hA₁, List.reverse_reverse])
  have hstart := lineStart_eq h₂ hline' (hfocus.trans hoff.symm)
  replace h : relexLeaves? (.resume (pre ++ y) r₁.position.offset) m₁
      (c.leavesBefore.takeWhile fun n => !endsLookahead n).reverse = some (s, mode) := by
    rw [← hmode, ← hstart]
    exact h
  have hresume : (Reader.resume (pre ++ y) r₁.position.offset).rest =
      Reader.Reads.textOf A₂ ++ y := by
    rw [Reader.resume, hoff₁, htext, List.append_assoc]
    exact Text.dropBytes_append _ _
  obtain ⟨us, hus, hmoved, hs⟩ := relexLeaves?_reads hline' h₂.sized hresume h
  -- what precedes the line is sealed off from the change
  have hchange : Reader.Reads (.ofText (pre ++ y)) .statementStart A₁
      ⟨Reader.Reads.textOf A₂ ++ y, r₁.position⟩ m₁ := by
    have hsealed : Reader.SealedFrom A₁ (Reader.Reads.textOf A₂ ++ y) := by
      refine sealedFrom_line h₁ h₂ hr hx (hy hs) ?_ ?_
      · intro t ht
        rw [hA₁, List.getLast?_reverse] at ht
        have := List.head?_dropWhile_not Token.isOpen A.reverse
        rw [Option.mem_def.1 ht] at this
        simp only [Token.isOpen, Bool.not_eq_false', Bool.or_eq_true, beq_iff_eq] at this
        exact this
      · intro t ht hk
        rw [hA₂, List.mem_reverse] at ht
        have := List.all_eq_true.1 List.all_takeWhile t ht
        rw [Token.isOpen, hk] at this
        cases this
    have := h₁.change hsealed
    rwa [← List.append_assoc, ← htext] at this
  have hresumed : (Reader.resume (pre ++ y) r₁.position.offset).position.offset =
      r₁.position.offset := by
    rw [Reader.resume, Position.advance_offset, hoff₁, htext, List.append_assoc,
      Text.takeBytes_append]
    exact Nat.zero_add _
  obtain ⟨vs, r', hvs, hmoved', hr', hoff'⟩ :=
    hus.moved (s := ⟨Reader.Reads.textOf A₂ ++ y, r₁.position⟩) (δ := 0) hresume.symm
      (by rw [hresumed]; exact (Int.add_zero _).symm)
  refine ⟨A₁ ++ vs, r', hchange.trans hvs, hr'.trans hs, hs, by omega, ?_⟩
  rw [hsplit]
  refine List.rel_append (List.forall₂_same.2 fun t _ => .refl t) ?_
  exact Token.Moved.trans_all hmoved hmoved'

end LpFormat
