import LpFormat.Proofs.Reparse.Place

/-!
# Edits inside one token

A token that is read again as one of the same kind, and as one that rules cannot tell from the old
one, changes nothing but spans: the document is read alike.

* `Parallel.stretched`: the old tokens beside the new ones;
* `Parallel.Tokens.of_sameShape`: tokens that correspond;
* `Parse.Relexed`, `Parse.relexToken?_cases`: what has been checked when the edit is answered so;
* `Parse.Relexed.inputs`: the two inputs correspond to the end;
* **`Parse.relexToken?_faithful`**: the answer is what parsing anew gives;
  `Parse.relexToken?_spliced`: the tree it has.
-/

namespace LpFormat

theorem relexable_cases : ∀ {k : Kind}, relexable.contains k = true →
    k = .ident ∨ k = .number ∨ k = .infinity ∨ k = .whitespace ∨ k = .lineComment ∨
      k = .blockComment := by decide

theorem isLexed_of_relexable : ∀ {k : Kind}, relexable.contains k = true → k.isLexed = true := by
  decide

namespace Parallel

/-- Offsets up to the start of a span stay, others move; the text of the span may differ. -/
def stretched (span : Span) (δ : Int) : Parallel :=
  ⟨fun a => if a ≤ span.start then a else shiftOffset a δ, fun s => s = span, [], []⟩

section Stretched

variable {s span : Span} {δ : Int}

theorem stretched_before (hs : s.start ≤ s.stop) (h : s.stop ≤ span.start) :
    s.map (stretched span δ).move = s := by
  simp only [Span.map, stretched]
  rw [if_pos (by omega), if_pos h]

theorem stretched_after (hs : s.start ≤ s.stop) (h : span.start < s.start) :
    s.map (stretched span δ).move = s.shift δ := by
  simp only [Span.map, stretched]
  rw [if_neg (by omega), if_neg (by omega)]
  rfl

theorem stretched_self (h : span.start < span.stop) :
    span.map (stretched span δ).move = span.stretch δ := by
  simp only [Span.map, stretched]
  rw [if_pos (Nat.le_refl _), if_neg (by omega)]
  rfl

end Stretched

variable {C : Parallel} {t t' : Token}

/-- Tokens of one kind correspond if neither has a meaning of its own, both have a sign or neither,
and comments are closed. -/
theorem Tokens.of_sameShape (hk : t'.kind = t.kind) (hr : relexable.contains t.kind = true)
    (h : sameShape t.kind t.text t'.text = true) (hs : t'.span = t.span.map C.move)
    (hb : C.blurred t.span) : C.Tokens t t' := by
  refine ⟨hk, hs, ?_, ?_, ?_, ?_, .inr hb⟩
  · rw [Token.isFree, Token.isFree, hk]
    rcases relexable_cases hr with h' | h' | h' | h' | h' | h' <;> rw [h'] at h ⊢ <;> try rfl
    simp only [sameShape, Grammar.isContextual, Bool.and_eq_true, Bool.not_eq_true',
      Bool.or_eq_false_iff] at h
    rw [h.1.1, h.2.1]
  · rw [Rule.isSosType, Rule.isSosType, hk]
    rcases relexable_cases hr with h' | h' | h' | h' | h' | h' <;> rw [h'] at h ⊢ <;> try rfl
    simp only [sameShape, Grammar.isContextual, Bool.and_eq_true, Bool.not_eq_true',
      Bool.or_eq_false_iff] at h
    rw [h.1.2, h.2.2]
  · rw [Rule.isSignedLiteral, Rule.isSignedLiteral, hk]
    rcases relexable_cases hr with h' | h' | h' | h' | h' | h' <;> rw [h'] at h ⊢ <;> try rfl
    · rw [eq_of_beq h]
    · rw [eq_of_beq h]
  · rw [Token.isUnclosed, Token.isUnclosed, hk]
    rcases relexable_cases hr with h' | h' | h' | h' | h' | h' <;> rw [h'] at h ⊢ <;> try rfl
    simp only [sameShape, Bool.and_eq_true] at h
    rw [h.1, h.2]

end Parallel

/-! ## What was checked -/

theorem guard_eq_some {c : Prop} [Decidable c] {u : Unit} :
    (guard c : Option Unit) = some u ↔ c := by
  by_cases h : c
  · simp [guard, h]
  · simp only [guard, h, if_false, iff_false]
    intro h
    cases h

namespace Parse

/-- What was checked before an edit is answered by reading one token. -/
structure Relexed (p : Parse) (e : Edit) (new : Text) (c : Cursor) (s : Reader) (mode : Mode) :
    Prop where
  kind : relexable.contains c.focus.kind = true
  untouched : ∀ d ∈ p.diagnostics, d.span.touches c.focus.span = false
  shape : sameShape c.focus.kind (p.text.slice c.focus.span)
    (new.slice (c.focus.span.stretch e.delta)) = true
  line : relexPrefix? c new = some (s, mode)
  nextKind : (s.next mode).1.kind = c.focus.kind
  nextSpan : (s.next mode).1.span = c.focus.span.stretch e.delta

theorem relexToken?_cases {p : Parse} {e : Edit} {new : Text} {answer : Reparse}
    (h : p.relexToken? e new = some answer) :
    ∃ s mode, p.Relexed e new (p.tree.cover e.span) s mode ∧
      answer.parse = ⟨⟨new, (p.tree.cover e.span).splice
          ⟨(p.tree.cover e.span).focus.id, (p.tree.cover e.span).focus.kind,
            (p.tree.cover e.span).focus.span.stretch e.delta,
            (p.tree.cover e.span).focus.children⟩ e.delta, p.tree.allocated, p.tree.dead⟩,
        p.diagnostics.map (Diagnostic.shiftFrom (p.tree.cover e.span).focus.span.stop e.delta),
        p.options⟩ := by
  simp only [relexToken?, Option.bind_eq_bind, Option.bind_eq_some_iff, guard_eq_some] at h
  obtain ⟨_, hkind, _, huntouched, _, hshape, ⟨s, mode⟩, hline, _, hnext, _, _, hanswer⟩ := h
  rw [Bool.and_eq_true, beq_iff_eq, beq_iff_eq] at hnext
  cases hanswer
  refine ⟨s, mode, ⟨hkind, ?_, hshape, hline, hnext.1, hnext.2⟩, rfl⟩
  simpa using huntouched

/-! ## The two inputs -/

section Inputs

variable {p : Parse} {e : Edit} {new mid : Text} {c : Cursor} {s : Reader} {mode : Mode}
  {A M B : List Token} {r₁ r₂ : Reader} {m₁ m₂ : Mode}

theorem Relexed.isToken (h : p.Relexed e new c s mode) : c.focus.kind.isToken = true :=
  Kind.isToken_of_isLexed (isLexed_of_relexable h.kind)

theorem Relexed.lexedAs (h : p.Relexed e new c s mode) : c.focus.kind.lexedAs = c.focus.kind :=
  Kind.lexedAs_of_isLexed (isLexed_of_relexable h.kind)

/-- The node that is read again is one token. -/
theorem Relexed.token (h : p.Relexed e new c s mode) (hs : c.Site p.text A M B r₁ r₂ m₁ m₂) :
    ∃ t, M = [t] ∧ t.kind = c.focus.kind ∧ t.span = c.focus.span := by
  have hshown := hs.shown
  rw [Node.skeleton_of_isToken h.isToken] at hshown
  change List.Forall₂ Trace.Leaf M [(c.focus.kind, c.focus.span)] at hshown
  cases hshown with
  | @cons t _ _ _ ht hnil =>
    cases hnil
    refine ⟨t, rfl, ?_, ht.span.symm⟩
    have hlexed := hs.inside.kind_isLexed t List.mem_cons_self
    exact (ht.shown.lexedAs hlexed).1.symm.trans h.lexedAs

theorem Relexed.ne_eof (h : p.Relexed e new c s mode) : s.rest ≠ [] := by
  intro hnil
  have hk := (Reader.next_eof mode hnil).1
  rw [h.nextKind] at hk
  have hr := h.kind
  rw [hk] at hr
  cases hr

/-- The new tokens: the old ones before the edit, the token read again, and the old ones after the
edit, moved. -/
theorem Relexed.tokens (h : p.Relexed e new c s mode) (hc : ∀ k ∈ c.path, Cursor.OnPath k)
    (hs : c.Site p.text A M B r₁ r₂ m₁ m₂)
    (hnew : new = Reader.Reads.textOf A ++ (mid ++ r₂.rest))
    (hmid : (mid.byteSize : Int) = (Reader.Reads.textOf M).byteSize + e.delta) :
    ∃ A' t' B', lex new = A' ++ t' :: B' ∧ List.Forall₂ (Token.Moved 0) A A' ∧
      List.Forall₂ (Token.Moved e.delta) B B' ∧ t'.kind = c.focus.kind ∧
      t'.span = c.focus.span.stretch e.delta := by
  obtain ⟨t, rfl, htk, hts⟩ := h.token hs
  have hinside := hs.byteSize_inside
  have hx : r₁.rest ≠ [] := by
    rw [hs.rest₁]
    exact fun hnil => (hs.inside.sized t List.mem_cons_self).1 (by simpa [Reader.Reads.textOf] using
      (List.append_eq_nil_iff.1 hnil).1)
  have hbefore := hs.before
  rw [hs.text_eq, List.append_assoc, ← hs.rest₁] at hbefore
  have hline := h.line
  rw [hnew] at hline
  have hlineFeed : s.rest = mid ++ r₂.rest → (mid ++ r₂.rest).head? ≠ some '\n' := by
    intro hrest
    rw [← hrest]
    refine head?_ne_lineFeed (Reader.yields_next mode h.ne_eof) fun hk => ?_
    rw [h.nextKind] at hk
    have hr := h.kind
    rw [hk] at hr
    cases hr
  obtain ⟨A', r', hA', hr', hsrest, hoff, hmoved⟩ := relexPrefix?_reads hbefore rfl
    (hs.holdsBefore hc) hs.byteSize_before.symm hx hlineFeed hline
  rw [← hnew] at hA'
  obtain rfl := hs.before.mode_unique hA' hmoved
  -- the token itself is read again, and ends where the old text goes on
  obtain ⟨hmovedt, _, _⟩ := Reader.next_moved (r := s) (s := r') mode (hr'.trans hsrest.symm)
    (δ := 0) (by rw [hoff]; exact (Int.add_zero _).symm)
  have hne' : r'.rest ≠ [] := by
    rw [hr', ← hsrest]
    exact h.ne_eof
  have hyield := Reader.yields_next mode hne'
  have hkind' : (r'.next mode).1.kind = c.focus.kind := hmovedt.kind.trans h.nextKind
  have hspan' : (r'.next mode).1.span = c.focus.span.stretch e.delta :=
    hmovedt.span_eq.trans h.nextSpan
  have hstart : r'.position.offset = c.focus.span.start := by
    rw [← hyield.start, hspan']
    rfl
  have hstop : ((r'.next mode).1.span.stop : Int) = c.focus.span.stop + e.delta := by
    rw [hspan']
    exact shiftOffset_cast (by omega)
  have hsize : (r'.next mode).1.text.byteSize = mid.byteSize := by
    have := hyield.stop
    omega
  obtain ⟨_, hrest⟩ := Text.append_inj_of_byteSize (hyield.rest.symm.trans hr') hsize
  have hmode : m₂ = mode.next (r'.next mode).1.kind := by
    rw [hs.inside.mode_eq, hkind', ← htk]
    rfl
  have hB := (Reader.tokens_moved (δ := e.delta) m₂ hrest (by
    rw [hyield.offset, hstop, hs.stop])).1
  refine ⟨A', _, _, ?_, hmoved, hs.after ▸ hB, hkind', hspan'⟩
  have htokens := hA'.tokens_eq.1
  rw [Reader.tokens_cons mode hne', ← hmode] at htokens
  exact htokens

/-- The two inputs correspond to the end. -/
theorem Relexed.inputs (h : p.Relexed e new c s mode) (hc : ∀ k ∈ c.path, Cursor.OnPath k)
    (hs : c.Site p.text A M B r₁ r₂ m₁ m₂)
    (hnew : new = Reader.Reads.textOf A ++ (mid ++ r₂.rest))
    (hmid : (mid.byteSize : Int) = (Reader.Reads.textOf M).byteSize + e.delta) :
    (Parallel.stretched c.focus.span e.delta).Inputs (.start p.text) (.start new) := by
  obtain ⟨t, rfl, htk, hts⟩ := h.token hs
  obtain ⟨A', t', B', hlex', hA, hB, htk', hts'⟩ := h.tokens hc hs hnew hmid
  have hsolid := hs.inside.solid t List.mem_cons_self
  rw [hts] at hsolid
  refine ⟨⟨A ++ t :: B, A' ++ t' :: B', ?_, ?_, ?_⟩, ?_, Input.proper_ofText .., Input.proper_ofText ..⟩
  · rw [Input.start, Input.tokens_ofText_zero, hs.tokens_eq]
    exact (List.append_nil _).symm
  · rw [Input.start, Input.tokens_ofText_zero, hlex']
    exact (List.append_nil _).symm
  · refine List.rel_append ?_ (.cons ?_ ?_)
    · refine ((List.forall₂_and_left _ _).2 ⟨hs.stop_le_start, hA⟩).imp ?_
      rintro u u' ⟨hu, hmoved⟩
      refine .of_same hmoved.kind hmoved.text ?_
      rw [hmoved.span_eq, Parallel.stretched_before (Nat.le_of_lt hu.1) hu.2]
    · refine .of_sameShape (htk'.trans htk.symm) (htk ▸ h.kind) ?_ ?_ hts
      · have hslice := slice_lex p.text t (by rw [hs.tokens_eq]; simp)
        have hslice' := slice_lex new t' (by rw [hlex']; simp)
        rw [htk, ← hslice, ← hslice', hts, hts']
        exact h.shape
      · rw [hts', hts, Parallel.stretched_self hsolid]
    · refine ((List.forall₂_and_left _ _).2 ⟨hs.stop_le_of_mem_after, hB⟩).imp ?_
      rintro u u' ⟨hu, hmoved⟩
      refine .of_same hmoved.kind hmoved.text ?_
      rw [hmoved.span, Parallel.stretched_after (Nat.le_of_lt hu.2) (by omega)]
  · simp [Input.start, Input.ofText, Parallel.stretched]

end Inputs

/-! ## The answer -/

theorem map_move_stretched {c : Cursor} {f : List Skeleton} {size : Nat} (h : c.Placed f size)
    (hk : c.focus.kind.isToken = true) (δ : Int) :
    (Crumb.eventsBefore c.path ++ c.focus.skeleton.events ++ Crumb.eventsAfter c.path).map
        (Event.move (Parallel.stretched c.focus.span δ).move) =
      Crumb.eventsBefore c.path ++ [.token c.focus.kind (c.focus.span.stretch δ)] ++
        (Crumb.eventsAfter c.path).map (Event.move fun a => shiftOffset a δ) := by
  have hsolid := h.fitted.1.solid
  have hbefore : (Crumb.eventsBefore c.path).map
      (Event.move (Parallel.stretched c.focus.span δ).move) = Crumb.eventsBefore c.path := by
    refine (map_move_congr fun s hs => ?_).trans (map_move_id _)
    have := h.adjoin.1.mem hs
    exact Parallel.stretched_before this.2.1 this.2.2
  have hafter : (Crumb.eventsAfter c.path).map
      (Event.move (Parallel.stretched c.focus.span δ).move) =
        (Crumb.eventsAfter c.path).map (Event.move fun a => shiftOffset a δ) := by
    refine map_move_congr fun s hs => ?_
    have := h.adjoin.2.mem hs
    exact Parallel.stretched_after this.2.1 (by omega)
  rw [List.map_append, List.map_append, hbefore, hafter, Node.skeleton_of_isToken hk]
  change _ ++ [Event.token c.focus.kind (c.focus.span.map _)] ++ _ = _
  rw [Parallel.stretched_self hsolid]

/-- A diagnostic that does not touch a span moves with what is beside the span. -/
theorem shiftFrom_of_diagnostics {span : Span} {δ : Int} (hspan : span.start < span.stop)
    {d d' : Diagnostic} (hd : d.span.start ≤ d.span.stop) (ht : d.span.touches span = false)
    (h : (Parallel.stretched span δ).Diagnostics d d') :
    d' = d.shiftFrom span.stop δ ∧ d.Beside span.start span.stop := by
  have happart : d.span.stop < span.start ∨ span.stop < d.span.start := by
    simp only [Span.touches, Bool.and_eq_false_iff, decide_eq_false_iff_not] at ht
    omega
  obtain ⟨problem, sp⟩ := d
  obtain ⟨problem', sp'⟩ := d'
  have hs := h.span
  have hp : problem' = problem := by
    refine h.problem.resolve_right fun hb => ?_
    change sp = span at hb
    subst hb
    simp only at happart
    omega
  simp only at hd happart hs
  refine ⟨?_, hd, by simp only; omega⟩
  rw [hp, hs, Diagnostic.shiftFrom]
  rcases happart with ha | ha
  · rw [if_neg (by simp only; omega), Parallel.stretched_before hd (by omega)]
  · rw [if_pos (by simp only; omega), Parallel.stretched_after hd (by omega)]

theorem diagnostics_relexed {span : Span} {δ : Int} (hspan : span.start < span.stop)
    {ds ds' : List Diagnostic} (hle : ∀ d ∈ ds, d.span.start ≤ d.span.stop)
    (ht : ∀ d ∈ ds, d.span.touches span = false)
    (h : List.Forall₂ (Parallel.stretched span δ).Diagnostics ds ds') :
    ds' = ds.map (Diagnostic.shiftFrom span.stop δ) ∧
      ∀ d ∈ ds, d.Beside span.start span.stop := by
  induction h with
  | nil => exact ⟨rfl, List.forall_mem_nil _⟩
  | cons hd _ ih =>
    obtain ⟨hle₀, hle⟩ := List.forall_mem_cons.1 hle
    obtain ⟨ht₀, ht⟩ := List.forall_mem_cons.1 ht
    obtain ⟨rfl, h₁⟩ := shiftFrom_of_diagnostics hspan hle₀ ht₀ hd
    obtain ⟨rfl, h₂⟩ := ih hle ht
    exact ⟨rfl, List.forall_mem_cons.2 ⟨h₁, h₂⟩⟩

/-- If no diagnostic was cut off or touches the token, the old ones move with what is beside it. -/
theorem Relexed.arranged {p : Parse} {e : Edit} {new : Text} {c : Cursor} {s : Reader} {mode : Mode}
    (h : p.Relexed e new c s mode) (hp : p.Faithful) (hcap : p.capReached = false)
    (hspan : c.focus.span.start < c.focus.span.stop)
    (hδ : (c.focus.span.start : Int) ≤ c.focus.span.stop + e.delta)
    (hsame : (Parallel.stretched c.focus.span e.delta).Outputs
      (Rule.document (.start p.text)).output (Rule.document (.start new)).output) :
    p.diagnostics.map (Diagnostic.shiftFrom c.focus.span.stop e.delta) =
      Diagnostic.arrange p.options.maxErrors (Rule.document (.start new)).output.diagnostics := by
  have hsorted := hp.diagnostics_eq_sorted hcap
  have hperm := Diagnostic.sorted_perm (Rule.document (.start p.text)).output.diagnostics
  obtain ⟨hds, hbeside⟩ := diagnostics_relexed hspan (Rule.document_span_le p.text)
    (fun d hd => h.untouched d (hsorted ▸ hperm.mem_iff.2 hd)) hsame.diagnostics
  have hmap : p.diagnostics.map (Diagnostic.shiftFrom c.focus.span.stop e.delta) =
      Diagnostic.sorted (Rule.document (.start new)).output.diagnostics := by
    rw [hsorted, hds]
    refine Diagnostic.map_sorted fun a ha b hb => ?_
    exact Diagnostic.notAfter_shiftFrom (Nat.le_of_lt hspan) hδ (hbeside a ha) (hbeside b hb)
  rw [hmap]
  refine (Diagnostic.arrange_of_length_eq hcap ?_).symm
  rw [hds, List.length_map, hsorted, hperm.length_eq]

/-- The leaf that is read again is below the root, around the edit. -/
theorem Relexed.below {p : Parse} {e : Edit} {new : Text} {s : Reader} {mode : Mode}
    (h : p.Relexed e new (p.tree.cover e.span) s mode) (hp : p.Faithful) :
    (p.tree.cover e.span).path ≠ [] ∧ (p.tree.cover e.span).focus.span.contains e.span = true := by
  obtain ⟨f, _, hroot⟩ := hp.tree
  have hpath : (p.tree.cover e.span).path ≠ [] := by
    intro hnil
    have hcover := Cursor.cover_root p.tree e.span
    rw [Cursor.root, hnil] at hcover
    have := h.isToken
    rw [show (p.tree.cover e.span).focus = p.tree.root from hcover, hroot.kind] at this
    cases this
  exact ⟨hpath, (Cursor.cover_placed hroot e.span hpath).2⟩

/-- The leaf with its new span fits in the place of the old one. -/
theorem Relexed.fitted {p : Parse} {e : Edit} {new mid : Text} {c : Cursor} {s : Reader}
    {mode : Mode} {A M B : List Token} {r₁ r₂ : Reader} {m₁ m₂ : Mode}
    (h : p.Relexed e new c s mode) (hc : c.focus.Fitted) (hs : c.Site p.text A M B r₁ r₂ m₁ m₂)
    (hmid : (mid.byteSize : Int) = (Reader.Reads.textOf M).byteSize + e.delta) :
    (c.focus.span.start : Int) ≤ c.focus.span.stop + e.delta ∧
      ((c.focus.span.stretch e.delta).stop : Int) = c.focus.span.stop + e.delta ∧
      (⟨c.focus.id, c.focus.kind, c.focus.span.stretch e.delta, c.focus.children⟩ : Node).Fitted := by
  have hsolid := (Reader.yields_next mode h.ne_eof).solid
  rw [h.nextSpan] at hsolid
  have hδ : (c.focus.span.start : Int) ≤ c.focus.span.stop + e.delta := by
    have := hs.byteSize_inside
    omega
  refine ⟨hδ, shiftOffset_cast (by omega), ?_⟩
  rw [hc.children_eq_nil h.isToken]
  exact .token h.isToken hsolid

/-- **An edit that is answered by reading one token gives what parsing anew gives.** -/
theorem relexToken?_faithful {p : Parse} {e : Edit} {a m z : Text} {answer : Reparse}
    (hp : p.Faithful) (hcap : p.capReached = false) (hcut : e.Cuts p.text a m z)
    (h : p.relexToken? e (a ++ e.insert ++ z) = some answer) :
    answer.parse.Faithful ∧ answer.parse.text = a ++ e.insert ++ z ∧
      answer.parse.options = p.options := by
  obtain ⟨s, mode, hR, hanswer⟩ := relexToken?_cases h
  obtain ⟨hpath, hin⟩ := hR.below hp
  have hcover := Cursor.cover_root p.tree e.span
  generalize p.tree.cover e.span = c at hR hanswer hpath hin hcover
  obtain ⟨f, A, M, B, r₁, r₂, m₁, m₂, mid, he, hplaced, hs, hnew, hmid⟩ :=
    hp.exists_edited hcut hcover hpath hin
  have hsame := Rule.document_alike rfl rfl (hR.inputs hplaced.fitted.2 hs hnew hmid)
  have hsize := hs.byteSize_eq hnew hmid
  generalize a ++ e.insert ++ z = new at hR hanswer hnew hsame hsize
  have hsolid := hplaced.fitted.1.solid
  obtain ⟨hδ, hstop, hfitted⟩ := hR.fitted hplaced.fitted.1 hs hmid
  generalize hn : (⟨c.focus.id, c.focus.kind, c.focus.span.stretch e.delta, c.focus.children⟩ :
    Node) = n at hanswer hfitted
  have hskeleton : n.skeleton.events = [.token c.focus.kind (c.focus.span.stretch e.delta)] := by
    have hk : n.kind.isToken = true := hn ▸ hR.isToken
    rw [Node.skeleton_of_isToken hk, ← hn]
    rfl
  have hids : (c.splice n e.delta).descendants.map Node.id =
      p.tree.root.descendants.map Node.id := by
    rw [Cursor.splice_ids_same (by rw [← hn]) (by rw [← hn]), hcover]
  obtain ⟨g, hg, hevents⟩ := hplaced.splice hfitted (by rw [← hn]; rfl) (by rw [← hn]; exact hstop)
    hsize
  rw [hanswer]
  refine ⟨⟨⟨g, ?_, hg⟩, hR.arranged hp hcap hsolid hδ hsame, ?_, ?_⟩, rfl, rfl⟩
  · change (Rule.document (.start new)).output.events = _
    rw [hsame.events, he, hplaced.events_eq, map_move_stretched hplaced hR.isToken, hevents,
      hskeleton]
  · exact hids ▸ hp.ids
  · exact hids ▸ hp.allocated

/-- An edit that is answered by reading one token puts the leaf with its new span in place of the
old one, and counts as one node made anew. -/
theorem relexToken?_spliced {p : Parse} {e : Edit} {a m z : Text} {answer : Reparse}
    (hp : p.Faithful) (hcut : e.Cuts p.text a m z)
    (h : p.relexToken? e (a ++ e.insert ++ z) = some answer) :
    ∃ c n, c = p.tree.cover e.span ∧ p.Spliced e c n answer.parse ∧ c.focus.kind.isToken = true ∧
      n = ⟨c.focus.id, c.focus.kind, c.focus.span.stretch e.delta, c.focus.children⟩ ∧
      answer.parse.tree.allocated = p.tree.allocated ∧ answer.parse.tree.dead = p.tree.dead ∧
      answer.strategy = .token ∧ answer.reused = answer.parse.tree.nodeCount - 1 ∧
      answer.reparsed = 1 := by
  obtain ⟨s, mode, hR, hanswer⟩ := relexToken?_cases h
  obtain ⟨hpath, hin⟩ := hR.below hp
  have hcover := Cursor.cover_root p.tree e.span
  have hstats : answer.strategy = .token ∧ answer.reused = answer.parse.tree.nodeCount - 1 ∧
      answer.reparsed = 1 := by
    simp only [relexToken?, Option.bind_eq_bind, Option.bind_eq_some_iff, guard_eq_some] at h
    obtain ⟨_, _, _, _, _, _, _, _, _, _, _, _, hanswer⟩ := h
    cases hanswer
    exact ⟨rfl, rfl, rfl⟩
  generalize p.tree.cover e.span = c at hR hanswer hpath hin hcover
  obtain ⟨f, A, M, B, r₁, r₂, m₁, m₂, mid, _, hplaced, hs, _, hmid⟩ :=
    hp.exists_edited hcut hcover hpath hin
  obtain ⟨_, hstop, hfitted⟩ := hR.fitted hplaced.fitted.1 hs hmid
  refine ⟨c, _, rfl, ⟨hcover, hpath, hin, hfitted, rfl, hstop, ?_⟩, hR.isToken, rfl, ?_, ?_, hstats⟩
  all_goals rw [hanswer]

end Parse

end LpFormat
