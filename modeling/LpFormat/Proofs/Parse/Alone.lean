import LpFormat.Proofs.Parse.Excerpt

/-!
# Statements on their own

What a statement is read as depends on its own text and on the keyword of its section only. The
reader does not look past its end, since no word goes on there and no keyword comes up; the rules see
the end of input where they saw the end of the line; and what is reported in its range comes from its
own run.

* `Skeleton.Joined.last_ne`, `Cursor.Round.mode_end`: a statement ends inside a line;
  `Cursor.Round.reads_alone`: its text alone gives its tokens;
* `Rule.Reaches.beside`, `Rule.Reaches.filter_diagnostics`: the diagnostics in the range of a
  statement;
* `Parallel.lifted`, `Cursor.Round.inputs_alone`: a statement and its excerpt side by side;
* `Parse.Lifts`, `Parse.exists_lifts`: both documents; `Parse.reportsIn`, `Parse.Lifts.reports_eq`:
  their reports;
* **`statement_alone`**: the excerpt has a statement of the same form with the same reports.
-/

namespace LpFormat

/-! ## The tokens of a statement -/

/-- A tree whose line ends all stand between operators and operands does not end with one. -/
theorem Skeleton.Joined.last_ne {s : Skeleton} (h : s.Joined) (hs : s.Proper) :
    ∀ l ∈ (leavesOf s.events).getLast?, l.1 ≠ .newline := by
  have hlast : ∀ (kind : Kind) (cs : List Skeleton) (c : Skeleton), c.Proper →
      (leavesOf (Skeleton.node kind (cs ++ [c])).events).getLast? = (leavesOf c.events).getLast? := by
    intro kind cs c hc
    rw [events, leavesOf_enclosed, eventsAll_append, leavesOf_append, eventsAll_singleton,
      List.getLast?_append_of_ne_nil _ hc.leaves_ne]
  induction h with
  | leaf span hk =>
    intro l hl
    cases hl
    exact hk
  | node kind _ ih =>
    cases hs with
    | node _ hne hc =>
      obtain ⟨cs, c, rfl⟩ := (List.eq_nil_or_concat _).resolve_left hne
      rw [List.concat_eq_append] at *
      rw [hlast kind cs c (hc c (by simp))]
      exact ih c (by simp) (hc c (by simp))
  | expression _ hb ih =>
    cases hs with
    | node _ hne hc =>
      obtain ⟨cs, c, rfl⟩ := (List.eq_nil_or_concat _).resolve_left hne
      rw [List.concat_eq_append] at *
      rw [hlast .expression cs c (hc c (by simp))]
      refine ih c (by simp) (fun span hspan => ?_) (hc c (by simp))
      -- behind a line end an operand follows
      obtain ⟨_, blanks, k, sp, rest, hleaves, _⟩ := hb cs span [] (by rw [hspan])
      simp [eventsAll, leavesOf] at hleaves

theorem foldl_next_inline {ts : List Token} (h : ∀ t ∈ ts, t.kind.isTrivia = false →
    Grammar.statementEnd.contains t.kind = false) :
    ts.foldl (fun m t => m.next t.kind) Mode.inline = .inline := by
  induction ts with
  | nil => rfl
  | cons t ts ih =>
    obtain ⟨ht, hts⟩ := List.forall_mem_cons.1 h
    rw [List.foldl_cons, Mode.inline_next ht]
    exact ih hts

/-- Where a statement ends inside a line, no word goes on. -/
theorem Reader.not_continued {r : Reader} {e : Token}
    (h : Grammar.statementEnd.contains (Input.nth e 0 (r.tokens .inline).tokens).kind = true) :
    r.rest.head?.any isIdentContinue = false := by
  rw [Bool.eq_false_iff]
  intro hany
  obtain ⟨rest, p⟩ := r
  cases rest with
  | nil => cases hany
  | cons c cs =>
    have hscan := (yields_next (r := ⟨c :: cs, p⟩) .inline (List.cons_ne_nil _ _)).scan
    have hplain := Lexeme.isPlain_of_identContinue hany cs
    rw [show Lexeme.scan .inline (c :: cs) = _ from hscan, Lexeme.isPlain, Bool.and_eq_true,
      Bool.not_eq_true', Bool.not_eq_true'] at hplain
    rw [tokens_cons .inline (List.cons_ne_nil _ _), Input.nth_zero_cons hplain.1, hplain.2] at h
    cases h

theorem colon_mem_text {text : Text} {t : Token} (ht : t ∈ lex text) (hk : t.kind = .colon) :
    ':' ∈ t.text := by
  obtain ⟨r, mode, hreads, _⟩ := lex_reads text
  obtain ⟨m, rest, hscan⟩ := exists_scan_of_mem_lex ht
  obtain ⟨c, w, hw⟩ := List.exists_cons_of_ne_nil (hreads.sized t ht).1
  rw [hk, hw, List.cons_append] at hscan
  rw [hw, Lexeme.eq_colon_of_scan hscan]
  exact List.mem_cons_self

/-- A token that is shown as neither trivia nor a line end is none. -/
theorem shownAs_inside {t : Token} {kind : Kind} (h : t.ShownAs kind) (hsig : kind.isTrivia = false)
    (hnl : kind ≠ .newline) : t.kind.isTrivia = false ∧ t.kind ≠ .newline := by
  cases h with
  | same => exact ⟨hsig, hnl⟩
  | free hk _ => rw [hk]; exact ⟨rfl, Kind.noConfusion⟩
  | sosType hk _ => rw [hk]; exact ⟨rfl, Kind.noConfusion⟩

section Round

variable {p : Parse} {c : Cursor} {rule : StatementRule} {j : Input} {pre : Output}
  {post : Input → Output} {A v M B us : List Token} {t : Token} {more : List Skeleton}
  {r₁ r₂ : Reader} {m₁ m₂ : Mode}

namespace Cursor.Round

theorem advance_inside (h : c.Round (.start p.text) rule j pre post A v t us more) :
    (j.advance (t :: us)).Proper ∧ ¬ Rule.At Grammar.statementEnd (j.advance (t :: us)) := by
  refine ⟨h.proper.of_suffix rfl ⟨v, h.next.tokens.symm⟩, ?_⟩
  rw [Rule.At, show (j.advance (t :: us)).peek 0 = j.peek 0 from h.next.peek_advance 0]
  exact h.inside

theorem tokens_split (h : c.Round (.start p.text) rule j pre post A v t us more)
    (hs : c.Site p.text A M B r₁ r₂ m₁ m₂) : t :: us = M ++ B := by
  have htokens := h.tokens
  rw [show (Input.start p.text).tokens = lex p.text from Input.tokens_ofText_zero p.text 0,
    hs.tokens_eq] at htokens
  exact (List.append_cancel_left htokens).symm

/-- The round of a statement starts with its first token. -/
theorem first (h : c.Round (.start p.text) rule j pre post A v t us more)
    (hs : c.Site p.text A M B r₁ r₂ m₁ m₂) :
    B.length ≤ us.length ∧ c.focus.span.start = t.span.start := by
  have hsplit := h.tokens_split hs
  cases M with
  | nil =>
    obtain ⟨zs, ht, _⟩ := h.trace hs (K := fun _ => True) (fun _ _ => trivial) fun _ => trivial
    have hproper := ht.forest_proper h.advance_inside.1 _ List.mem_cons_self
    exact absurd (List.forall₂_nil_left_iff.1 hs.shown) hproper.leaves_ne
  | cons u M =>
    rw [List.cons_append] at hsplit
    obtain ⟨rfl, rfl⟩ := List.cons.inj hsplit
    refine ⟨?_, hs.start.symm.trans hs.inside.adjoin.1.symm⟩
    rw [List.length_append]
    exact Nat.le_add_left _ _

/-- The last token of a statement is neither a line end nor a keyword, and no other is a keyword. -/
theorem mode_end (h : c.Round (.start p.text) rule j pre post A v t us more)
    (hs : c.Site p.text A M B r₁ r₂ m₁ m₂) (hk : c.focus.kind.isNode = true) :
    (∀ u ∈ M, u.kind.isSectionKeyword = false) ∧ m₂ = .inline := by
  obtain ⟨hj, hinside⟩ := h.advance_inside
  obtain ⟨zs, ht, _, _⟩ := h.trace hs (K := fun _ => True) (fun _ _ => trivial) fun _ => trivial
  obtain ⟨xs, f, hxs, he, _, hwords, hjoined⟩ := (Rule.completes rule hj hinside).leaves
  obtain rfl := Skeleton.eventsAll_injective (he.symm.trans h.forest)
  obtain rfl := List.append_cancel_right (hxs.symm.trans ht.tokens_eq)
  have hwords' := fun u hu => hwords u (List.mem_append_left _ hu)
  refine ⟨hwords', ?_⟩
  have hproper := ht.forest_proper hj _ List.mem_cons_self
  have hlast := (hjoined _ List.mem_cons_self).last_ne hproper
  have hshown := hs.shown
  obtain ⟨M, u, rfl⟩ : ∃ M' u, M = M' ++ [u] := by
    refine ⟨_, _, (List.dropLast_concat_getLast fun hnil => hproper.leaves_ne ?_).symm⟩
    rw [hnil] at hshown
    exact List.forall₂_nil_left_iff.1 hshown
  obtain ⟨ls, ls', hls, _, hl⟩ := Parallel.forall₂_append_left hshown
  cases hl with
  | @cons _ l _ _ hl hnil =>
    cases hnil
    have hmem : l ∈ (leavesOf c.focus.skeleton.events).getLast? := by
      rw [hls, List.getLast?_concat]
      rfl
    have hsig : l.1.isTrivia = false := by
      rw [Node.skeleton_of_isNode hk] at ht hmem
      rw [Skeleton.events, leavesOf_enclosed] at hmem
      exact ht.node_ends List.mem_cons_self l hmem
    obtain ⟨hsig, hnl⟩ := shownAs_inside hl.shown hsig (hlast l hmem)
    have hmode : Mode.after u.kind = .inline := by
      rw [Mode.after, if_neg]
      rintro (hu | hu)
      · exact hnl hu
      · rw [hwords' u (by simp)] at hu
        cases hu
    rw [hs.inside.mode_eq_after, List.reverse_append, List.reverse_singleton, List.singleton_append,
      List.find?_cons_of_pos (by simp [hsig])]
    exact hmode

/-- Nothing but its own text decides how a statement is read. -/
theorem reads_alone (h : c.Round (.start p.text) rule j pre post A v t us more)
    (hs : c.Site p.text A M B r₁ r₂ m₁ m₂) (hk : c.focus.kind.isNode = true)
    (hmode : m₁ = .statementStart) :
    Reader.Reads ⟨Reader.Reads.textOf M, r₁.position⟩ .statementStart M ⟨[], r₂.position⟩ m₂ := by
  subst hmode
  obtain ⟨hj, hinside⟩ := h.advance_inside
  obtain ⟨hwords, rfl⟩ := h.mode_end hs hk
  refine hs.inside.cut hwords fun xs ys hsplit hys hstart => ?_
  cases more with
  | nil =>
    -- the statement ends where it ends in the text
    obtain ⟨zs, _, hB, hzs⟩ := h.trace hs (K := fun _ => True) (fun _ _ => trivial) fun _ => trivial
    obtain rfl : zs = [] := List.forall₂_nil_right_iff.1 hzs
    have hstops := (Rule.completes rule hj hinside).stops
    rw [Rule.At, Input.peek, ← List.nil_append (Input.tokens _), ← hB, ← hs.after] at hstops
    exact .inl (Reader.not_continued hstops)
  | cons x more =>
    -- an entry of a line of entries has a colon, and a keyword could stand at its start only
    have hn : (j.advance (t :: us)).Next [] t us := ⟨rfl, allTrivia_nil, h.next.significant⟩
    have htokens : (j.advance (t :: us)).tokens = M ++ B := h.tokens_split hs
    obtain ⟨hident, u, hu, hcolon⟩ :=
      Rule.entry_colon hj htokens hinside hs.shown.length_eq hn h.forest
    obtain ⟨rfl, _⟩ := Rule.statement_entries hj hn hinside h.forest
    obtain ⟨zs, ht, _⟩ := h.trace hs inline_statementEnd fun hne => absurd rfl hne
    cases xs with
    | nil =>
      obtain rfl : M = ys := hsplit
      have hlex : u ∈ lex p.text := by
        rw [hs.tokens_eq]
        exact List.mem_append_right _ (List.mem_append_left _ hu)
      exact .inr (List.mem_flatMap.2 ⟨u, hu, colon_mem_text hlex hcolon⟩)
    | cons y xs =>
      obtain rfl : y = t := by
        have := h.tokens_split hs
        rw [hsplit] at this
        exact (List.cons.inj this).1.symm
      have hfold : xs.foldl (fun m t => Mode.next m t.kind) .inline = .inline := by
        refine foldl_next_inline fun w hw hsig => ht.kinds w (List.mem_append_left _ ?_) hsig
        rw [hsplit]
        simp [hw]
      rw [List.foldl_cons, hident, show Mode.statementStart.next .ident = .inline from rfl, hfold]
        at hstart
      cases hstart

end Cursor.Round

end Round

/-! ## The diagnostics of a statement -/

namespace Rule

variable {i j : Input} {rule : StatementRule} {pre : Output} {post : Input → Output}
  {v us : List Token} {t : Token}

theorem inputs_still (hi : i.Proper) {xs ts : List Token} (h : i.tokens = xs ++ ts) :
    (Parallel.still ts ts).Inputs i i :=
  ⟨⟨xs, xs, h, h, List.forall₂_same.2 fun _ _ => .of_same rfl rfl rfl⟩, rfl, hi, hi⟩

/-- What a document reports before and behind a statement is about tokens before and behind it. -/
theorem Reaches.beside (h : Reaches i rule j pre post) (hi : i.Proper) (hord : Ordered i.tokens)
    (hn : j.Next v t us) (hinside : ¬ At Grammar.statementEnd j) :
    (∀ d ∈ pre.diagnostics, d.span.start < t.span.start) ∧
      ∀ k : Input, k.Proper → ∀ d ∈ (post k).diagnostics,
        d.span.start < t.span.start ∨ ∃ u ∈ k.tokens, Trace.At d u := by
  obtain ⟨xs, f, ht, _⟩ := h.trace hi
  have htokens : i.tokens = (xs ++ v) ++ t :: us := by
    rw [ht.tokens_eq, hn.tokens, List.append_assoc]
  have hparts : (Parallel.still (t :: us) (t :: us)).PartsAt t us := by
    refine Parallel.partsAt_still rfl hn.significant ?_
    rw [At, hn.peek_zero] at hinside
    simpa using hinside
  obtain ⟨j', pre', post', _, hlead, hcontinue⟩ := h.lead hparts (inputs_still hi htokens) hord (by
    change (t :: us).length ≤ j.tokens.length
    rw [hn.tokens, List.length_append]
    exact Nat.le_add_left _ _)
  refine ⟨hlead.early, fun k hk d hd => ?_⟩
  have hlater := (hcontinue (.still [] []) k k rfl rfl
    (inputs_still hk (List.append_nil _).symm)).diagnostics
  obtain ⟨n, hlt, rfl⟩ := List.mem_iff_getElem.1 hd
  cases hlater.get hlt (hlater.length_eq ▸ hlt) with
  | behind _ hat => exact .inr hat
  | ahead _ hlt => exact .inl hlt

/-- The diagnostics in the range of a statement are those that its rule reports for it. -/
theorem Reaches.filter_diagnostics (h : Reaches i rule j pre post) (hi : i.Proper)
    (hord : Ordered i.tokens) (hj : j.Proper) (hn : j.Next v t us)
    (hinside : ¬ At Grammar.statementEnd j) {span : Span} (hstart : span.start = t.span.start)
    {ds es : List Diagnostic} (hds : (statement rule j).output.diagnostics = ds ++ es)
    (hown : ∀ d ∈ ds, span.contains d.span = true)
    (hothers : ∀ d ∈ es, ¬ span.contains d.span = true)
    (hrest : ∀ u ∈ (statement rule j).rest.tokens,
      span.stop ≤ u.span.start ∧ u.span.start < u.span.stop) :
    (document i).output.diagnostics.filter (fun d => span.contains d.span) = ds := by
  obtain ⟨hpre, hpost⟩ := h.beside hi hord hn hinside
  have hproper := (spec_statement (K := fun _ => True) (fun _ _ => trivial) rule (fun _ => trivial) j
    hj (Nat.le_refl _) hinside).proper hj
  have hdocument : (document i).output.diagnostics =
      pre.diagnostics ++ ((ds ++ es) ++ (post (statement rule j).rest).diagnostics) := by
    rw [h.document_eq hi hj hinside, ← hds]
    rfl
  rw [hdocument, List.filter_append, List.filter_append, List.filter_append,
    List.filter_eq_nil_iff.2, List.filter_eq_self.2 hown, List.filter_eq_nil_iff.2 hothers,
    List.filter_eq_nil_iff.2]
  · simp
  · intro d hd
    rw [Cursor.contains_iff]
    rcases hpost _ hproper d hd with hlt | hat
    · omega
    · obtain ⟨h₁, h₂⟩ := located_behind hrest hat
      omega
  · intro d hd
    have := hpre d hd
    rw [Cursor.contains_iff]
    omega

end Rule

/-! ## The statement and its excerpt -/

namespace Parallel

/-- All from an offset on moves, and the second input ends where the first goes on with a tail. -/
def lifted (start : Nat) (δ : Int) (tail : List Token) : Parallel :=
  ⟨fun a => shiftOffset (max start a) δ, fun _ => False, tail, []⟩

variable {start : Nat} {δ : Int} {tail : List Token}

theorem map_lifted {s : Span} (h : start ≤ s.start) (hle : s.start ≤ s.stop) :
    s.map (lifted start δ tail).move = s.shift δ := by
  simp only [Span.map, Span.shift, lifted, max_eq_right h, max_eq_right (Nat.le_trans h hle)]

theorem Tokens.of_lifted {t u : Token} (h : t.Moved δ u) (ht : start ≤ t.span.start)
    (hle : t.span.start ≤ t.span.stop) : (lifted start δ tail).Tokens t u :=
  .of_same h.kind h.text (h.span.trans (map_lifted ht hle).symm)

theorem Diagnostics.of_lifted {d d' : Diagnostic} (h : (lifted start δ tail).Diagnostics d d')
    (hd : start ≤ d.span.start) (hle : d.span.start ≤ d.span.stop) : d' = d.shiftFrom start δ := by
  obtain ⟨problem, span⟩ := d
  obtain ⟨problem', span'⟩ := d'
  obtain ⟨hs, hp⟩ := h
  cases hp.resolve_right id
  rw [Diagnostic.shiftFrom, if_pos hd, Diagnostic.mk.injEq]
  exact ⟨rfl, hs.trans (map_lifted hd hle)⟩

end Parallel

section Lift

variable {p : Parse} {c : Cursor} {rule : StatementRule} {j : Input} {pre : Output}
  {post : Input → Output} {A v M B us : List Token} {t : Token} {more : List Skeleton}
  {r₁ r₂ : Reader} {m₁ m₂ : Mode} {f : List Skeleton}

/-- A statement that starts a line is read in the mode in which a text is read. -/
theorem Cursor.Site.mode_start (hs : c.Site p.text A M B r₁ r₂ m₁ m₂)
    (hc : c.Placed f p.text.byteSize) (hstart : Parse.startsStatement c = true) :
    m₁ = .statementStart := by
  have hkind := Cursor.Placed.startsStatement_kind hs hc hstart
  rw [hs.before.mode_eq_after]
  cases hfind : A.reverse.find? fun t => !t.kind.isTrivia with
  | none => rfl
  | some u =>
    have hlexed := hs.before.kind_isLexed u (List.mem_reverse.1 (List.mem_of_find?_eq_some hfind))
    have hend := hkind u hfind
    exact Mode.after_of_statementEnd hlexed hend

/-- All that was taken before a statement ends before it. -/
theorem Cursor.Round.takenEnd_le (h : c.Round (.start p.text) rule j pre post A v t us more)
    (hs : c.Site p.text A M B r₁ r₂ m₁ m₂) : j.takenEnd ≤ c.focus.span.start := by
  obtain ⟨xs, f, ht, _⟩ := h.reaches.trace (Input.proper_ofText ..)
  have hA : A = xs ++ v := by
    refine List.append_cancel_right (h.tokens.symm.trans ?_)
    rw [ht.tokens_eq, h.next.tokens, List.append_assoc]
  rcases ht.ends with ⟨_, rfl⟩ | ⟨ys, u, rfl, _, hend, _⟩
  · exact Nat.zero_le _
  · rw [hend]
    exact (hs.stop_le_start u (by simp [hA])).2

theorem Cursor.Site.textOf_eq (hs : c.Site p.text A M B r₁ r₂ m₁ m₂) :
    p.tree.textOf c.focus = Reader.Reads.textOf M := by
  have hspan : c.focus.span = ⟨(Reader.Reads.textOf A).byteSize,
      (Reader.Reads.textOf A).byteSize + (Reader.Reads.textOf M).byteSize⟩ := by
    rw [hs.byteSize_before, hs.byteSize_inside]
  rw [Tree.textOf, hspan, show p.tree.text = _ from hs.text_eq]
  exact Text.slice_append _ _ _

theorem Cursor.Site.start_le (hs : c.Site p.text A M B r₁ r₂ m₁ m₂) :
    ∀ u ∈ M, c.focus.span.start ≤ u.span.start ∧ u.span.start ≤ u.span.stop := by
  intro u hu
  have hmem := hs.inside.adjoin.mem (List.mem_map_of_mem hu)
  rw [hs.start] at hmem
  exact ⟨hmem.1, hmem.2.1⟩

/-- The tokens of a statement are those of its excerpt, moved. -/
theorem Cursor.Round.inputs_alone (h : c.Round (.start p.text) rule j pre post A v t us more)
    (hs : c.Site p.text A M B r₁ r₂ m₁ m₂) (hk : c.focus.kind.isNode = true)
    (hmode : m₁ = .statementStart) {r : Reader} {j' : Input} {δ : Int} (hj' : j'.Proper)
    (hrest : r.rest = Reader.Reads.textOf M)
    (hoffset : (r.position.offset : Int) = c.focus.span.start + δ)
    (htokens : j'.tokens = (r.tokens .statementStart).tokens)
    (htaken : j'.takenEnd = r.position.offset) :
    (Parallel.lifted c.focus.span.start δ B).Inputs (j.advance (t :: us)) j' := by
  have hall : (Reader.tokens ⟨Reader.Reads.textOf M, r₁.position⟩ .statementStart).tokens = M := by
    rw [(h.reads_alone hs hk hmode).tokens_eq.1, Reader.tokens_nil _ rfl, List.append_nil]
  have hmoved := (Reader.tokens_moved (r := ⟨Reader.Reads.textOf M, r₁.position⟩) (δ := δ)
    .statementStart hrest (by rw [hoffset, ← hs.start])).1
  rw [hall, ← htokens] at hmoved
  refine ⟨⟨M, j'.tokens, h.tokens_split hs, (List.append_nil _).symm, ?_⟩, ?_, h.advance_inside.1,
    hj'⟩
  · exact ((List.forall₂_and_left _ _).2 ⟨hs.start_le, hmoved⟩).imp fun u u' hu =>
      .of_lifted hu.2 hu.1.1 hu.1.2
  · change j'.takenEnd = shiftOffset (max c.focus.span.start j.takenEnd) δ
    rw [max_eq_left (h.takenEnd_le hs), htaken]
    exact (shiftOffset_eq hoffset).symm

/-- The events of a statement in its excerpt are those of the statement moved. -/
theorem Cursor.Site.events_lifted (hs : c.Site p.text A M B r₁ r₂ m₁ m₂) (δ : Int)
    (tail : List Token) : c.focus.skeleton.events.map
        (Event.move (Parallel.lifted c.focus.span.start δ tail).move) =
      (c.focus.shift δ).skeleton.events := by
  rw [Node.events_shift]
  refine map_move_congr fun s hmem => ?_
  rw [leafSpans_of_forall₂ hs.shown] at hmem
  obtain ⟨u, hu, rfl⟩ := List.mem_map.1 hmem
  obtain ⟨hstart, hle⟩ := hs.start_le u hu
  exact Parallel.map_lifted hstart hle

/-- The diagnostics at the tokens of a node are in its range. -/
theorem Cursor.Site.contains_own (hs : c.Site p.text A M B r₁ r₂ m₁ m₂) {d : Diagnostic}
    (hd : ∃ u ∈ M, Trace.At d u) :
    c.focus.span.contains d.span = true ∧ c.focus.span.start ≤ d.span.start ∧
      d.span.start ≤ d.span.stop := by
  obtain ⟨h₁, h₂, h₃⟩ := located_within hs.inside.adjoin hd
  rw [hs.start] at h₁
  rw [hs.stop] at h₃
  exact ⟨Cursor.contains_iff.2 ⟨h₁, h₃⟩, h₁, h₂⟩

theorem ordered_start (text : Text) : Ordered (Input.start text).tokens := by
  rw [show (Input.start text).tokens = lex text from Input.tokens_ofText_zero text 0]
  exact ordered_of_adjoin (adjoin_lex text)

/-- In its document, the diagnostics in the range of a statement are its own. -/
theorem Cursor.Round.diagnostics_here (h : c.Round (.start p.text) rule j pre post A v t us more)
    (hs : c.Site p.text A M B r₁ r₂ m₁ m₂) {C : Parallel} {i' : Input} {o rest : Output}
    (hS : Rule.Severs C rule (j.advance (t :: us)) i' M B c.focus.skeleton o rest) :
    (Rule.document (.start p.text)).output.diagnostics.filter
      (fun d => c.focus.span.contains d.span) = o.diagnostics := by
  have hcomments := h.reaches.comments_eq_nil h.next
  have hds : (Rule.statement rule j).output.diagnostics = o.diagnostics ++ rest.diagnostics := by
    rw [h.run, Output.diagnostics_append, show (Output.trivia v).diagnostics = [] from hcomments,
      hS.output]
    rfl
  refine h.reaches.filter_diagnostics (Input.proper_ofText ..) (ordered_start _) h.proper h.next
    h.inside (h.first hs).2 hds (fun d hd => (hs.contains_own (hS.own d hd)).1) (fun d hd => ?_)
    fun u hu => ?_
  · have hbehind := located_behind hs.stop_le_of_mem_after (hS.others d hd)
    rw [Cursor.contains_iff]
    omega
  · obtain ⟨zs, _, hB, _⟩ := h.trace hs (K := fun _ => True) (fun _ _ => trivial) fun _ => trivial
    rw [h.run] at hu
    exact hs.stop_le_of_mem_after u (hB ▸ List.mem_append_right _ hu)

/-- In the excerpt, the diagnostics in the range of the statement are the same, moved. -/
theorem Rule.Severs.diagnostics_there {δ : Int} {text : Text} {i j' : Input} {pre' : Output}
    {post' : Input → Output} {s : Skeleton} {o rest : Output} {span : Span}
    (hS : Severs (.lifted span.start δ B) rule i j' M B s o rest)
    (hreach : Reaches (.start text) rule j' pre' post')
    (hinputs : (Parallel.lifted span.start δ B).Inputs i j') (hn : i.Next [] t us)
    (hl : B.length ≤ us.length) (ht : span.start = t.span.start)
    (hown : ∀ d ∈ o.diagnostics, span.contains d.span = true ∧ span.start ≤ d.span.start ∧
      d.span.start ≤ d.span.stop) :
    (document (.start text)).output.diagnostics.filter (fun d => (span.shift δ).contains d.span) =
      o.diagnostics.map (Diagnostic.shiftFrom span.start δ) := by
  obtain ⟨v', t', us', hn', _, htt, _⟩ := hinputs.next hn hl
  have hmap : (statement rule j').output.diagnostics =
      o.diagnostics.map (Diagnostic.shiftFrom span.start δ) := by
    have hall := (List.forall₂_and_left _ _).2 ⟨hown, hS.alone.diagnostics⟩
    have heq : List.Forall₂ Eq (o.diagnostics.map (Diagnostic.shiftFrom span.start δ))
        (statement rule j').output.diagnostics := by
      rw [List.forall₂_map_left_iff]
      exact hall.imp fun d d' hd => (hd.2.of_lifted hd.1.2.1 hd.1.2.2).symm
    rw [List.forall₂_eq_eq_eq] at heq
    exact heq.symm
  refine hreach.filter_diagnostics (Input.proper_ofText ..) (ordered_start _) hinputs.proper' hn'
    hS.inside ?_ (hmap.trans (List.append_nil _).symm) (fun d hd => ?_) (List.forall_mem_nil _) ?_
  · rw [htt.span]
    change shiftOffset span.start δ = shiftOffset (max span.start t.span.start) δ
    rw [ht, max_self]
  · obtain ⟨d, hd', rfl⟩ := List.mem_map.1 hd
    obtain ⟨hin, hstart, hle⟩ := hown d hd'
    rw [Diagnostic.shiftFrom, if_pos hstart]
    rw [Cursor.contains_iff] at hin ⊢
    simp only [Span.shift, shiftOffset]
    omega
  · rw [hS.ends]
    exact List.forall_mem_nil _

end Lift

namespace Parse

/-- A statement, and the same one a distance away in a document that has nothing else: the forest of
that document, and what is reported for the statement. -/
structure Lifts (p : Parse) (c : Cursor) (δ : Int) (f : List Skeleton) (ds : List Diagnostic) :
    Prop where
  start : ((p.heading c).byteSize : Int) = c.focus.span.start + δ
  fitted : c.focus.Fitted
  hung : (c.focus.shift δ).skeleton.Hung f
  events : (Rule.document (.start (p.excerpt c))).output.events =
    .start .document :: (Skeleton.eventsAll f ++ [.finish])
  inside : ∀ d ∈ ds, c.focus.span.start ≤ d.span.start ∧ d.span.start ≤ d.span.stop
  here : (Rule.document (.start p.text)).output.diagnostics.filter
    (fun d => c.focus.span.contains d.span) = ds
  there : (Rule.document (.start (p.excerpt c))).output.diagnostics.filter
    (fun d => (c.focus.span.shift δ).contains d.span) =
      ds.map (Diagnostic.shiftFrom c.focus.span.start δ)

theorem exists_lifts (text : Text) (options : Options) {c : Cursor}
    (hc : c ∈ (parse text options).tree.cursors) (hout : isOuterStatement c = true)
    (hstart : startsStatement c = true) : ∃ δ f ds, (parse text options).Lifts c δ f ds := by
  have hroot := Tree.root_of_mem_cursors hc
  obtain ⟨f₀, he₀, hf₀⟩ := (parse_faithful text options).tree
  have hpath : c.path ≠ [] := by
    intro hnil
    rw [isOuterStatement, hnil] at hout
    simp at hout
  have hnode : c.focus.kind.isNode = true :=
    Kind.isNode_of_isStatement (Bool.and_eq_true _ _ ▸ hout : _ ∧ _).1
  have hplaced := Cursor.placed_of_root hf₀ hroot hpath
  obtain ⟨A, M, B, r₁, r₂, m₁, m₂, hs⟩ := hplaced.exists_site (Rule.document_shown he₀)
  obtain ⟨rule, hrule, _⟩ := hplaced.seat (Input.proper_ofText ..) he₀ hout
  obtain ⟨j, pre, post, v, t, us, more, hR⟩ :=
    hplaced.exists_round hs he₀ hout hrule fun _ => hstart
  -- the place in the excerpt where the statement is read
  obtain ⟨r, j', pre', post', hrest, hoffset, htokens, htaken, hleads⟩ :=
    (heads_heading text options hroot hrule).exists_leads ((parse text options).tree.textOf c.focus)
  generalize hδ : (((parse text options).heading c).byteSize : Int) - c.focus.span.start = δ
  have hstart' : (((parse text options).heading c).byteSize : Int) = c.focus.span.start + δ := by
    omega
  have hinputs := hR.inputs_alone hs hnode (hs.mode_start hplaced hstart) hleads.proper
    (hrest.trans hs.textOf_eq) (by rw [hoffset]; exact hstart') htokens (htaken.trans hoffset.symm)
  have hn : (j.advance (t :: us)).Next [] t us := ⟨rfl, allTrivia_nil, hR.next.significant⟩
  obtain ⟨o, rest, hS⟩ := Rule.severs hinputs rfl rfl (hR.tokens_split hs) hR.advance_inside.2
    hs.shown.length_eq hn hR.forest
  have hi : (Input.start text).Proper := Input.proper_ofText ..
  have hi' : (Input.start ((parse text options).excerpt c)).Proper := Input.proper_ofText ..
  have hdocument := hleads.reaches.document_eq hi' hleads.proper hS.inside
  have hproper := (Rule.spec_statement (K := fun _ => True) (fun _ _ => trivial) rule
    (fun _ => trivial) j' hleads.proper (Nat.le_refl _) hS.inside).proper hleads.proper
  have hevents : (Rule.statement rule j').output.events = (c.focus.shift δ).skeleton.events := by
    rw [hS.alone.events, hS.events, hs.events_lifted]
  obtain ⟨f, hhung, hf⟩ := hleads.events (c.focus.shift δ).skeleton _ hproper hS.ends
  refine ⟨δ, f, o.diagnostics, hstart', hplaced.fitted.1, hhung, ?_, ?_, ?_, ?_⟩
  · change (Rule.document (.start (_ ++ _))).output.events = _
    rw [hdocument, ← hf, ← hevents]
    simp [Output.enclosed]
  · exact fun d hd => (hs.contains_own (hS.own d hd)).2
  · exact hR.diagnostics_here hs hS
  · exact hS.diagnostics_there hleads.reaches hinputs hn (hR.first hs).1 (hR.first hs).2
      fun d hd => hs.contains_own (hS.own d hd)

/-- What is reported in the range of a node, with spans counted from its start on. -/
def reportsIn (p : Parse) (n : Node) : List Diagnostic :=
  (p.diagnostics.filter fun d => n.span.contains d.span).map fun d =>
    { d with span := d.span.since n.span.start }

/-- The reports of a statement and of its excerpt, in order. -/
theorem Lifts.reports_eq {text : Text} {options : Options} {c c' : Cursor} {δ : Int}
    {f : List Skeleton} {ds : List Diagnostic} (h : (parse text options).Lifts c δ f ds)
    (hcap : options.maxErrors = none) (hspan : c'.focus.span = c.focus.span.shift δ) :
    (parse ((parse text options).excerpt c) options).reportsIn c'.focus =
      (parse text options).reportsIn c.focus := by
  have hsorted : ∀ text, (parse text options).diagnostics =
      Diagnostic.sorted (Rule.document (.start text)).output.diagnostics := by
    intro text
    change Diagnostic.arrange options.maxErrors _ = _
    rw [hcap]
    rfl
  have hbeside : ∀ d ∈ ds, d.Beside 0 c.focus.span.start :=
    fun d hd => ⟨(h.inside d hd).2, .inr (h.inside d hd).1⟩
  have hδ : 0 ≤ (c.focus.span.start : Int) + δ := by
    rw [← h.start]
    exact Int.natCast_nonneg _
  have hhere := h.here
  rw [show (parse text options).text = text from rfl] at hhere
  rw [reportsIn, reportsIn, hsorted, hsorted, Diagnostic.filter_sorted, Diagnostic.filter_sorted,
    hspan, h.there, hhere, ← Diagnostic.map_sorted, List.map_map]
  · refine List.map_congr_left fun d hd => ?_
    obtain ⟨hstart, hle⟩ := h.inside d ((Diagnostic.sorted_perm ds).mem_iff.1 hd)
    rw [Function.comp_apply, Diagnostic.shiftFrom, if_pos hstart]
    exact congrArg (Diagnostic.mk d.problem) (Node.since_shift hδ hstart hle)
  · exact fun a ha b hb =>
      Diagnostic.notAfter_shiftFrom (Nat.zero_le _) hδ (hbeside a ha) (hbeside b hb)

end Parse

/-- **A statement does not depend on its surroundings.** Written on its own behind the keyword of
its section, a statement that begins a line is read as a node of the same form, and the same is
reported for it. -/
theorem statement_alone (text : Text) (options : Options) (hcap : options.maxErrors = none)
    {c : Cursor} (hc : c ∈ (parse text options).tree.cursors)
    (hout : Parse.isOuterStatement c = true) (hstart : Parse.startsStatement c = true) :
    ∃ c' ∈ (parse ((parse text options).excerpt c) options).tree.cursors,
      Parse.isOuterStatement c' = true ∧
      c'.focus.span.start = ((parse text options).heading c).byteSize ∧
      c'.focus.form = c.focus.form ∧
      (parse ((parse text options).excerpt c) options).reportsIn c'.focus =
        (parse text options).reportsIn c.focus := by
  obtain ⟨δ, f, ds, h⟩ := Parse.exists_lifts text options hc hout hstart
  obtain ⟨g, hevents, hroot⟩ := (parse_faithful ((parse text options).excerpt c) options).tree
  obtain rfl : g = f := by
    have hall := hevents.symm.trans h.events
    rw [List.cons.injEq, List.append_cancel_right_eq] at hall
    exact Skeleton.eventsAll_injective hall.2
  obtain ⟨c', hc', hskeleton, hfitted, hparent⟩ := h.hung.exists_cursor hroot
  have hδ : 0 ≤ (c.focus.span.start : Int) + δ := by
    rw [← h.start]
    exact Int.natCast_nonneg _
  have hshapes := hfitted.shapes_eq (h.fitted.shift hδ) hskeleton
  have hspan : c'.focus.span = c.focus.span.shift δ :=
    (Node.span_eq_of_shapes hshapes).trans (Node.span_shift δ c.focus)
  have hkind : c'.focus.kind = c.focus.kind := by
    rw [← Node.kind_skeleton, hskeleton, Node.kind_skeleton, Node.shift_eq]
  refine ⟨c', hc', ?_, ?_, ?_, h.reports_eq hcap hspan⟩
  · rw [Parse.isOuterStatement, hkind, Bool.and_eq_true]
    exact ⟨(Bool.and_eq_true _ _ ▸ hout).1, hparent⟩
  · rw [hspan]
    exact shiftOffset_eq h.start
  · rw [Node.form_eq_of_shapes hshapes, h.fitted.form_shift hδ]

/-- A constraint in front of `end` that breaks off after an operator. -/
theorem statement_alone_dangling :
    ∃ c ∈ (parse ['s', 't', '\n', 'x', '+', '\n', 'e', 'n', 'd'] {}).tree.cursors,
      Parse.isOuterStatement c = true ∧ Parse.startsStatement c = true ∧
      (parse ['s', 't', '\n', 'x', '+', '\n', 'e', 'n', 'd'] {}).excerpt c =
        ['s', 't', '\n', 'x', '+'] ∧
      ∃ c' ∈ (parse ['s', 't', '\n', 'x', '+'] {}).tree.cursors,
        Parse.isOuterStatement c' = true ∧ c'.focus.span.start = 3 ∧
        c'.focus.form = c.focus.form ∧
        (parse ['s', 't', '\n', 'x', '+'] {}).reportsIn c'.focus =
          (parse ['s', 't', '\n', 'x', '+', '\n', 'e', 'n', 'd'] {}).reportsIn c.focus := by
  obtain ⟨c, hfind⟩ := Option.isSome_iff_exists.1 (show
    ((parse ['s', 't', '\n', 'x', '+', '\n', 'e', 'n', 'd'] {}).tree.cursors.find? fun c =>
      Parse.isOuterStatement c && Parse.startsStatement c &&
        (parse ['s', 't', '\n', 'x', '+', '\n', 'e', 'n', 'd'] {}).heading c == ['s', 't', '\n'] &&
        (parse ['s', 't', '\n', 'x', '+', '\n', 'e', 'n', 'd'] {}).excerpt c ==
          ['s', 't', '\n', 'x', '+']).isSome = true by decide +kernel)
  have hprops := List.find?_some hfind
  simp only [Bool.and_eq_true, beq_iff_eq] at hprops
  obtain ⟨⟨⟨hout, hstart⟩, hheading⟩, hexcerpt⟩ := hprops
  have hmem := List.mem_of_find?_eq_some hfind
  obtain ⟨c', hc', hout', hoffset, hform, hreports⟩ :=
    statement_alone _ {} rfl hmem hout hstart
  rw [hexcerpt] at hc' hreports
  rw [hheading] at hoffset
  exact ⟨c, hmem, hout, hstart, hexcerpt, c', hc', hout', hoffset, hform, hreports⟩

end LpFormat
