import LpFormat.Proofs.Reparse.Outer
import LpFormat.Proofs.Reparse.Token

/-!
# Edits inside one statement

A statement that is parsed again on its own, ends where the old one ended, and leaves the reader in
the same mode, changes nothing around it: what comes before is read as before, and what comes after
is read as before but moved.

* `Parse.Replaced`, `Parse.reparseStatement_cases`: what has been checked when an edit is answered so;
* `Parse.Resumed`, `Parse.Replaced.behind`: the tokens of the new statement, and those behind it;
* `Cursor.Round.trace_single`: the tokens of the old one;
* `Parse.Counterpart`, `Parse.Replaced.exists_counterpart`: the document of the new text reaches the
  statement as the old one does, and reads it as it is read alone;
* `Parse.Exchange`: two documents that differ by one statement, `Parse.Replaced.exchange`;
* `Parse.Exchange.arranged`: their diagnostics;
* **`Parse.reparseStatement_faithful`**: the answer is what parsing anew gives.
-/

namespace LpFormat

/-! ## First and last leaves -/

namespace Node

theorem Fitted.firstLeaf?_eq {n : Node} (h : n.Fitted) : n.firstLeaf? = n.leaves.head? := by
  induction h with
  | token hk _ =>
    rw [leaves_eq, if_pos hk, firstLeaf?, if_pos hk]
    rfl
  | @node id kind span children hk hne _ hc ih =>
    have hk' : ¬ kind.isToken = true := by simp [Kind.isToken, hk]
    obtain ⟨c, cs, rfl⟩ := List.exists_cons_of_ne_nil hne
    have hleaves := (hc c List.mem_cons_self).leaves_ne
    rw [leaves_eq, if_neg hk', firstLeaf?, if_neg hk', firstLeafOfFirst?, ih c List.mem_cons_self,
      List.flatMap_cons, List.head?_append_of_ne_nil _ hleaves]

theorem lastLeafOfLast?_eq {ns : List Node} {n : Node} (h : ns.getLast? = some n) :
    lastLeafOfLast? ns = n.lastLeaf? := by
  induction ns with
  | nil => cases h
  | cons a ns ih =>
    cases ns with
    | nil =>
      cases h
      rfl
    | cons b ns =>
      rw [lastLeafOfLast?]
      exact ih (by rwa [List.getLast?_cons_cons] at h)

theorem Fitted.lastLeaf?_eq {n : Node} (h : n.Fitted) : n.lastLeaf? = n.leaves.getLast? := by
  induction h with
  | token hk _ =>
    rw [leaves_eq, if_pos hk, lastLeaf?, if_pos hk]
    rfl
  | @node id kind span children hk hne _ hc ih =>
    have hk' : ¬ kind.isToken = true := by simp [Kind.isToken, hk]
    obtain ⟨cs, c, rfl⟩ : ∃ cs c, children = cs ++ [c] :=
      ⟨_, _, (List.dropLast_concat_getLast hne).symm⟩
    have hmem : c ∈ cs ++ [c] := List.mem_concat_self
    have hleaves := (hc c hmem).leaves_ne
    rw [leaves_eq, if_neg hk', lastLeaf?, if_neg hk', lastLeafOfLast?_eq List.getLast?_concat,
      ih c hmem, List.flatMap_append, List.flatMap_singleton, List.getLast?_append_of_ne_nil _ hleaves]

end Node

theorem Reader.Reads.stop_last {r r' : Reader} {mode mode' : Mode} {ts : List Token} {t : Token}
    (h : Reads r mode (ts ++ [t]) r' mode') : r'.position.offset = t.span.stop := by
  obtain ⟨r'', mode'', _, hlast⟩ := h.split
  cases hlast with
  | cons hne hnil =>
    cases hnil
    exact (yields_next _ hne).offset

/-- The first token of a list that is not trivia. -/
theorem Input.nth_zero_append {xs : List Token} (h : ∃ t ∈ xs, t.kind.isTrivia = false) (e : Token)
    (us : List Token) : nth e 0 (xs ++ us) ∈ xs ∧ (nth e 0 (xs ++ us)).kind.isTrivia = false := by
  induction xs with
  | nil =>
    obtain ⟨t, ht, _⟩ := h
    cases ht
  | cons x xs ih =>
    by_cases hx : x.kind.isTrivia = true
    · rw [List.cons_append, nth_cons_trivia hx]
      obtain ⟨t, ht, htriv⟩ := h
      rcases List.mem_cons.1 ht with rfl | ht
      · rw [hx] at htriv
        cases htriv
      · exact ⟨List.mem_cons_of_mem _ (ih ⟨t, ht, htriv⟩).1, (ih ⟨t, ht, htriv⟩).2⟩
    · rw [List.cons_append, nth_zero_cons (by simpa using hx)]
      exact ⟨List.mem_cons_self, by simpa using hx⟩

theorem findSome?_tokenKind? (es : List Event) :
    es.findSome? Event.tokenKind? = (leavesOf es).head?.map Prod.fst := by
  induction es with
  | nil => rfl
  | cons e es ih =>
    cases e with
    | token kind span => rfl
    | start kind => exact ih
    | finish => exact ih

/-! ## What was checked -/

/-- A statement parsed out of a text, by the run that gave it. -/
structure Fragment.Of (fragment : Fragment) (rule : StatementRule) (i : Input) (offset : Nat) :
    Prop where
  inside : ¬ Rule.At Grammar.statementEnd i
  start : (i.peek 0).span.start = offset
  output : fragment.output = (Rule.statement rule i).output
  stop : fragment.stop = (Rule.statement rule i).rest.takenEnd
  lastKind : (Rule.statement rule i).rest.lastKind = some fragment.lastKind

theorem parseStatementAt_eq_some {text : Text} {offset resumeAfter : Nat} {mode : Mode}
    {rule : StatementRule} {fragment : Fragment}
    (h : parseStatementAt text offset resumeAfter mode rule = some fragment) :
    fragment.Of rule (.ofText text offset resumeAfter mode) offset := by
  rw [parseStatementAt] at h
  simp only at h
  split_ifs at h with hcond
  rw [Bool.or_eq_true, not_or, bne_iff_ne, not_not] at hcond
  obtain ⟨kind, hkind, rfl⟩ := Option.map_eq_some_iff.1 h
  exact ⟨hcond.1, hcond.2, rfl, rfl, hkind⟩

namespace Parse

/-- The input from which a statement is parsed again. -/
def resumed (c : Cursor) (new : Text) (mode : Mode) : Input :=
  .ofText new c.focus.span.start ((c.prevSignificant?.map fun n => n.span.stop).getD 0) mode

/-- What was checked before a statement takes the place of another. -/
structure Replaced (p : Parse) (e : Edit) (new : Text) (c : Cursor) (rule : StatementRule)
    (s : Reader) (mode : Mode) (fragment : Fragment) : Prop where
  mem : c ∈ (p.tree.cover e.span).ancestors
  outer : isOuterStatement c = true
  starts : startsStatement c = true
  ruleAt : ruleAt? c = some rule
  line : relexPrefix? c new = some (s, mode)
  parsed : fragment.Of rule (resumed c new mode) c.focus.span.start
  fits : fitsInPlace c fragment new e.delta = true

/-- A statement that was found and parsed and that fits in place has been checked. -/
theorem statementFragment?_replaced {p : Parse} {e : Edit} {new : Text} {c : Cursor}
    {fragment : Fragment} (hf : p.statementFragment? e new = some (c, fragment))
    (hfits : fitsInPlace c fragment new e.delta = true) :
    (p.tree.cover e.span).ancestors.find? isOuterStatement = some c ∧
      ∃ rule s mode, p.Replaced e new c rule s mode fragment := by
  simp only [statementFragment?, Option.bind_eq_bind, Option.bind_eq_some_iff, guard_eq_some] at hf
  obtain ⟨c', hc, _, hstarts, rule, hrule, ⟨s, mode⟩, hline, fr, hfr, heq⟩ := hf
  cases heq
  exact ⟨hc, rule, s, mode, List.mem_of_find?_eq_some hc, List.find?_some hc, hstarts, hrule, hline,
    parseStatementAt_eq_some hfr, hfits⟩

/-- An edit that is answered by parsing one statement: what was checked, and the answer. -/
theorem reparseStatement_answer {p : Parse} {e : Edit} {new : Text} {answer : Reparse}
    (h : (p.reparseStatement e new).1 = some answer) :
    ∃ c rule s mode fragment statement allocated, p.Replaced e new c rule s mode fragment ∧
      (p.tree.cover e.span).ancestors.find? isOuterStatement = some c ∧
      Node.ofEvents p.tree.allocated c.focus.span.start fragment.output.events =
        ([statement], allocated) ∧
      (p.tree.dead + c.focus.size) * 100 ≤ allocated * p.options.maxDeadPercent ∧
      answer = {
        parse := ⟨⟨new, c.splice statement e.delta, allocated, p.tree.dead + c.focus.size⟩,
          Diagnostic.arrange p.options.maxErrors
            ((p.diagnostics.filter fun d => !c.focus.span.contains d.span).map
              (Diagnostic.shiftFrom c.focus.span.stop e.delta) ++ fragment.output.diagnostics),
          p.options⟩
        strategy := .statement
        reused := allocated - (p.tree.dead + c.focus.size) - statement.size
        reparsed := statement.size
        written := statement.descendants.map (·.id) ++ c.splicedIds e.delta } := by
  rw [reparseStatement] at h
  cases hf : p.statementFragment? e new with
  | none =>
    rw [hf] at h
    cases h
  | some r =>
    obtain ⟨c, fragment⟩ := r
    rw [hf] at h
    simp only at h
    split_ifs at h with hfits
    rw [spliceStatement] at h
    split at h
    · rename_i statement allocated hnodes
      dsimp only at h
      split_ifs at h with hdead
      obtain ⟨hc, rule, s, mode, hR⟩ := statementFragment?_replaced hf hfits
      cases h
      exact ⟨c, rule, s, mode, fragment, statement, allocated, hR, hc, hnodes,
        Nat.le_of_not_lt hdead, rfl⟩
    · cases h

theorem reparseStatement_cases {p : Parse} {e : Edit} {new : Text} {answer : Reparse}
    (h : (p.reparseStatement e new).1 = some answer) :
    ∃ c rule s mode fragment statement allocated, p.Replaced e new c rule s mode fragment ∧
      Node.ofEvents p.tree.allocated c.focus.span.start fragment.output.events =
        ([statement], allocated) ∧
      answer.parse = ⟨⟨new, c.splice statement e.delta, allocated, p.tree.dead + c.focus.size⟩,
        Diagnostic.arrange p.options.maxErrors
          ((p.diagnostics.filter fun d => !c.focus.span.contains d.span).map
            (Diagnostic.shiftFrom c.focus.span.stop e.delta) ++ fragment.output.diagnostics),
        p.options⟩ := by
  obtain ⟨c, rule, s, mode, fragment, statement, allocated, hR, _, hnodes, _, rfl⟩ :=
    reparseStatement_answer h
  exact ⟨c, rule, s, mode, fragment, statement, allocated, hR, hnodes, rfl⟩

/-! ## The new tokens -/

section Tokens

variable {p : Parse} {e : Edit} {new mid : Text} {c : Cursor} {rule : StatementRule} {s : Reader}
  {mode : Mode} {fragment : Fragment} {A M B : List Token} {r₁ r₂ : Reader} {m₁ m₂ : Mode}

/-- The place in the new text where the statement is read, and the input there. -/
structure Resumed (c : Cursor) (rule : StatementRule) (fragment : Fragment) (new : Text)
    (r : Reader) (mode : Mode) (ys : List Token) (r' : Reader) (mode' : Mode) : Prop where
  eq : r = .resume new c.focus.span.start
  offset : r.position.offset = c.focus.span.start
  reads : Reader.Reads r mode ys r' mode'
  trace : ∃ f, Trace (fun _ => True) 0 (resumed c new mode) ys f fragment.output.diagnostics
      (Rule.statement rule (resumed c new mode)).rest ∧
    fragment.output.events = Skeleton.eventsAll f
  nonempty : ys ≠ []
  rest : (Rule.statement rule (resumed c new mode)).rest.tokens = (r'.tokens mode').tokens
  stop : r'.position.offset = fragment.stop
  after : mode' = Mode.after fragment.lastKind

theorem Replaced.exists_reads (h : p.Replaced e new c rule s mode fragment)
    (hsize : (new.takeBytes c.focus.span.start).byteSize = c.focus.span.start) :
    ∃ r ys r' mode', Resumed c rule fragment new r mode ys r' mode' := by
  generalize hi : resumed c new mode = i
  have hparsed := h.parsed
  rw [hi] at hparsed
  have hproper : i.Proper := hi ▸ Input.proper_ofText ..
  have hspec := Rule.spec_statement (K := fun _ => True) (fun _ _ => trivial) rule (fun _ => trivial)
    i hproper (Nat.zero_le _) hparsed.inside
  obtain ⟨ys, f, ht, hf⟩ := hspec.trace
  have htokens : ((Reader.resume new c.focus.span.start).tokens mode).tokens =
      ys ++ (Rule.statement rule i).rest.tokens := by
    rw [← ht.tokens_eq, ← hi]
    rfl
  obtain ⟨r', mode', hreads, hrest⟩ := Reader.exists_reads htokens
  have hne : ys ≠ [] := ht.taken_lt_iff.1 (Nat.lt_of_le_of_lt (by rw [← hi]; exact Nat.le_refl 0)
    hspec.post.1)
  rcases ht.ends with ⟨hnil, _⟩ | ⟨zs, t, rfl, htriv, hend, hlast⟩
  · exact absurd hnil hne
  refine ⟨_, _, r', mode', rfl, ?_, hreads, ⟨f, ?_⟩, hne, ?_, ?_, ?_⟩
  · rw [Reader.resume_offset, hsize]
  · rw [hi, hparsed.output]
    exact ⟨ht, hf⟩
  · rw [hi, hrest]
  · rw [hparsed.stop, hend, hreads.stop_last]
  · rw [hreads.mode_eq_after, List.reverse_append, List.reverse_singleton, List.singleton_append,
      List.find?_cons_of_pos (by simp [htriv])]
    have := hparsed.lastKind
    rw [hlast, Option.some.injEq] at this
    simp only [this]

variable (hs : c.Site p.text A M B r₁ r₂ m₁ m₂)
  (hnew : new = Reader.Reads.textOf A ++ (mid ++ r₂.rest))

include hs hnew in
theorem resume_rest : (Reader.resume new c.focus.span.start).rest = mid ++ r₂.rest := by
  rw [Reader.resume, hnew, ← hs.byteSize_before]
  exact Text.dropBytes_append _ _

include hs hnew in
theorem takeBytes_start :
    (new.takeBytes c.focus.span.start).byteSize = c.focus.span.start := by
  rw [hnew, ← hs.byteSize_before, Text.takeBytes_append]

/-- The statement starts with the token at its offset. -/
theorem Replaced.first {r r' : Reader} {mode' : Mode} {ys : List Token}
    (h : p.Replaced e new c rule s mode fragment)
    (hr : Resumed c rule fragment new r mode ys r' mode') :
    ∃ t zs, ys = t :: zs ∧ t.kind.isTrivia = false ∧
      Grammar.statementEnd.contains t.kind = false := by
  have hproper : (resumed c new mode).Proper := Input.proper_ofText ..
  obtain ⟨v, t, us, hn, _⟩ := hproper.exists_next (Rule.ne_eof_of_not_at h.parsed.inside)
  obtain ⟨f, ht, _⟩ := hr.trace
  have hmem := ht.next_mem hn hr.nonempty
  have hend : Grammar.statementEnd.contains t.kind = false := by
    have := h.parsed.inside
    rw [Rule.At, hn.peek_zero] at this
    simpa using this
  have htokens := ht.tokens_eq
  rw [hn.tokens] at htokens
  cases v with
  | nil =>
    cases ys with
    | nil => exact absurd rfl hr.nonempty
    | cons y ys =>
      obtain ⟨rfl, _⟩ := List.cons.inj htokens
      exact ⟨t, ys, rfl, hn.significant, hend⟩
  | cons u v =>
    -- trivia would stand before the token, which starts right at the offset
    have hstart := h.parsed.start
    rw [hn.peek_zero] at hstart
    have hadjoin := hr.reads.adjoin
    cases ys with
    | nil => exact absurd rfl hr.nonempty
    | cons y ys =>
      obtain ⟨rfl, _⟩ := List.cons.inj htokens
      have htu : t ≠ u := by
        rintro rfl
        have := hn.trivia t List.mem_cons_self
        rw [hn.significant] at this
        cases this
      have htail : t ∈ ys := (List.mem_cons.1 hmem).resolve_left htu
      obtain ⟨hu, _, hys⟩ := hadjoin
      have h₁ := (hys.mem (List.mem_map_of_mem htail)).1
      have h₂ := hr.reads.solid u List.mem_cons_self
      rw [hr.offset] at hu
      omega

/-- The new tokens before the statement are the old ones, and those from it on are read by the
statement alone as by the document. -/
theorem Replaced.tokens {r r' : Reader} {mode' : Mode} {ys : List Token}
    (h : p.Replaced e new c rule s mode fragment)
    (hr : Resumed c rule fragment new r mode ys r' mode') (hc : ∀ k ∈ c.path, Cursor.OnPath k)
    (hs : c.Site p.text A M B r₁ r₂ m₁ m₂)
    (hnew : new = Reader.Reads.textOf A ++ (mid ++ r₂.rest)) (hM : M ≠ []) :
    ∃ A' T, lex new = A' ++ T ∧ List.Forall₂ (Token.Moved 0) A A' ∧
      List.Forall₂ (Token.Moved 0) (resumed c new mode).tokens T := by
  have hrest : r.rest = mid ++ r₂.rest := by
    rw [hr.eq]
    exact resume_rest hs hnew
  have hx : r₁.rest ≠ [] := by
    rw [hs.rest₁]
    intro hnil
    obtain ⟨t, ht⟩ := List.exists_mem_of_ne_nil M hM
    refine (hs.inside.sized t ht).1 ?_
    have htext := (List.append_eq_nil_iff.1 hnil).1
    rw [Reader.Reads.textOf, List.flatMap_eq_nil_iff] at htext
    exact htext t ht
  have hbefore := hs.before
  rw [hs.text_eq, List.append_assoc, ← hs.rest₁] at hbefore
  have hlineFeed : s.rest = mid ++ r₂.rest → (mid ++ r₂.rest).head? ≠ some '\n' := by
    intro _
    obtain ⟨t, zs, rfl, _, hend⟩ := h.first hr
    have hreads := hr.reads
    rw [← hrest]
    cases hreads with
    | cons hne _ =>
      refine head?_ne_lineFeed (Reader.yields_next mode hne) fun hk => ?_
      rw [hk] at hend
      cases hend
  have hline := h.line
  rw [hnew] at hline
  obtain ⟨A', q, hA', hq, _, _, hmoved⟩ := relexPrefix?_reads hbefore rfl (hs.holdsBefore hc)
    hs.byteSize_before.symm hx hlineFeed hline
  rw [← hnew] at hA'
  have hoff : q.position.offset = c.focus.span.start := by
    have h₁ := hA'.offset_eq
    have h₂ := hA'.rest_eq
    rw [hq] at h₂
    change new = _ at h₂
    rw [hnew] at h₂
    have h₃ := List.append_cancel_right h₂
    rw [h₁, ← h₃, hs.byteSize_before]
    exact Nat.zero_add _
  refine ⟨A', (q.tokens mode).tokens, hA'.tokens_eq.1, hmoved, ?_⟩
  refine (Reader.tokens_moved (r := .resume new c.focus.span.start) (s := q) (δ := 0) mode ?_ ?_).1
  · rw [hq, ← hrest, hr.eq]
  · rw [hoff, ← hr.eq, hr.offset]
    exact (Int.add_zero _).symm

/-- What was checked about the ends of the new statement. -/
theorem fitsInPlace_eq_true {δ : Int} (h : fitsInPlace c fragment new δ = true)
    (hc : c.focus.Fitted) : ∃ first last, c.focus.leaves.head? = some first ∧
      c.focus.leaves.getLast? = some last ∧ fragment.stop = shiftOffset c.focus.span.stop δ ∧
      (fragment.output.events.findSome? Event.tokenKind?).map Kind.lexedAs =
        some first.kind.lexedAs ∧
      Mode.after fragment.lastKind = Mode.after last.kind.lexedAs := by
  rw [fitsInPlace, hc.firstLeaf?_eq, hc.lastLeaf?_eq] at h
  cases hf : c.focus.leaves.head? with
  | none =>
    rw [hf] at h
    cases h
  | some first =>
    cases hl : c.focus.leaves.getLast? with
    | none =>
      rw [hf, hl] at h
      cases h
    | some last =>
      rw [hf, hl] at h
      simp only [Bool.and_eq_true, beq_iff_eq] at h
      exact ⟨first, last, rfl, rfl, h.1.1.1, h.1.1.2, h.1.2⟩

/-- The leaves of a node are its tokens. -/
theorem holds_leaves (hs : c.Site p.text A M B r₁ r₂ m₁ m₂) (hc : c.focus.Fitted) :
    List.Forall₂ Node.Holds c.focus.leaves M := by
  have hM := hs.shown
  rw [hc.leavesOf_eq, List.forall₂_map_right_iff] at hM
  have hlexed := (List.forall₂_and_left _ _).2 ⟨hs.inside.kind_isLexed, hM⟩
  exact (hlexed.imp fun t n ht => Node.holds_of_leaf ht.1 ht.2).flip

/-- The new statement begins with a token of the kind with which the old one began. -/
theorem Replaced.first_kind {r r' : Reader} {mode' : Mode} {t : Token} {M' zs : List Token} {y : Token}
    (h : p.Replaced e new c rule s mode fragment)
    (hr : Resumed c rule fragment new r mode (y :: zs) r' mode') (hc : c.focus.Fitted)
    (hs : c.Site p.text A (t :: M') B r₁ r₂ m₁ m₂) : y.kind = t.kind := by
  obtain ⟨first, last, hf, _, _, hkind, _⟩ := fitsInPlace_eq_true h.fits hc
  obtain ⟨f, ht, he⟩ := hr.trace
  have hleaves := holds_leaves hs hc
  have hshown := ht.shown
  rw [findSome?_tokenKind?, he] at hkind
  cases hl : c.focus.leaves with
  | nil =>
    rw [hl] at hf
    cases hf
  | cons n ns =>
    rw [hl] at hleaves hf
    cases hf
    cases hleaves with
    | cons hn _ =>
      cases hx : leavesOf (Skeleton.eventsAll f) with
      | nil =>
        rw [hx] at hshown
        cases hshown
      | cons x xs =>
        rw [hx] at hshown hkind
        cases hshown with
        | cons hy _ =>
          have hylexed := hr.reads.kind_isLexed y List.mem_cons_self
          have hxy : x.1.lexedAs = y.kind := (hy.shown.lexedAs hylexed).1
          have hxn : x.1.lexedAs = first.kind.lexedAs := by simpa using hkind
          rw [← hxy, hxn, hn.kind]

/-- What is read behind the new statement is what was read behind the old one, moved. -/
theorem Replaced.behind {r r' : Reader} {mode' : Mode} {ys : List Token}
    (h : p.Replaced e new c rule s mode fragment)
    (hr : Resumed c rule fragment new r mode ys r' mode') (hc : c.focus.Fitted)
    (hs : c.Site p.text A M B r₁ r₂ m₁ m₂)
    (hnew : new = Reader.Reads.textOf A ++ (mid ++ r₂.rest))
    (hmid : (mid.byteSize : Int) = (Reader.Reads.textOf M).byteSize + e.delta)
    (hlast : ∀ n ∈ c.focus.leaves.getLast?, n.kind.isTrivia = false) :
    (fragment.stop : Int) = c.focus.span.stop + e.delta ∧
      List.Forall₂ (Token.Moved e.delta) B (Rule.statement rule (resumed c new mode)).rest.tokens := by
  obtain ⟨first, last, _, hl, hstop, _, hmode⟩ := fitsInPlace_eq_true h.fits hc
  have hinside := hs.byteSize_inside
  have hstop' : (fragment.stop : Int) = c.focus.span.stop + e.delta := by
    rw [hstop]
    exact shiftOffset_cast (by omega)
  refine ⟨hstop', ?_⟩
  -- the reader stands where the old text goes on, in the mode in which it was read
  have hsplit : mid ++ r₂.rest = Reader.Reads.textOf ys ++ r'.rest := by
    rw [← resume_rest hs hnew, ← hr.eq]
    exact hr.reads.rest_eq
  have hsize : mid.byteSize = (Reader.Reads.textOf ys).byteSize := by
    have h₁ := hr.reads.offset_eq
    rw [hr.stop, hr.offset] at h₁
    omega
  have hrest := (Text.append_inj_of_byteSize hsplit hsize).2
  have hm₂ : mode' = m₂ := by
    rw [hr.after, hmode, hs.inside.mode_eq_after]
    have hleaves := List.forall₂_reverse_iff.2 (holds_leaves hs hc)
    rcases find?_of_forall₂ (fun n t hl => congrArg not hl.isTrivia) hleaves with
      ⟨h₁, _⟩ | ⟨n, t, h₁, h₂, hnt⟩
    · refine absurd (List.find?_eq_none.1 h₁ last ?_) (by simp [hlast last hl])
      exact List.mem_reverse.2 (List.mem_of_getLast? hl)
    · obtain ⟨ls, hls⟩ := List.getLast?_eq_some_iff.1 hl
      rw [hls, List.reverse_append, List.reverse_singleton, List.singleton_append,
        List.find?_cons_of_pos (by simp [hlast last hl]), Option.some.injEq] at h₁
      rw [h₂, h₁]
      simp only [hnt.kind]
  rw [hr.rest, ← hs.after, hm₂]
  refine (Reader.tokens_moved m₂ hrest.symm ?_).1
  rw [hr.stop, hstop', hs.stop]

end Tokens

end Parse

/-! ## The old statement -/

/-- A diagnostic at one of some adjoining tokens. -/
theorem located_within {ts : List Token} {a b : Nat} (h : Adjoin a b (ts.map Token.span))
    {d : Diagnostic} (hd : ∃ t ∈ ts, Trace.At d t) :
    a ≤ d.span.start ∧ d.span.start ≤ d.span.stop ∧ d.span.stop ≤ b := by
  obtain ⟨t, ht, hat⟩ := hd
  have hmem := h.mem (List.mem_map_of_mem ht)
  rcases hat with hspan | ⟨_, hspan⟩
  · rw [hspan]
    omega
  · rw [hspan]
    simp only [Span.empty]
    omega

/-- A diagnostic at a token behind a place. -/
theorem located_behind {ts : List Token} {b : Nat}
    (h : ∀ t ∈ ts, b ≤ t.span.start ∧ t.span.start < t.span.stop) {d : Diagnostic}
    (hd : ∃ t ∈ ts, Trace.At d t) : b ≤ d.span.start ∧ b < d.span.stop := by
  obtain ⟨t, ht, hat⟩ := hd
  have hmem := h t ht
  rcases hat with hspan | ⟨_, hspan⟩
  · rw [hspan]
    omega
  · rw [hspan]
    simp only [Span.empty]
    omega

section Round

variable {p : Parse} {c : Cursor} {rule : StatementRule} {j : Input} {pre : Output}
  {post : Input → Output} {A v M B us : List Token} {t : Token} {more : List Skeleton}
  {r₁ r₂ : Reader} {m₁ m₂ : Mode}

/-- The tokens from the statement on. -/
theorem Cursor.Round.tokens_inside (h : c.Round (.start p.text) rule j pre post A v t us more)
    (hs : c.Site p.text A M B r₁ r₂ m₁ m₂) : M ++ B = t :: us := by
  have htokens := h.tokens
  rw [show (Input.start p.text).tokens = lex p.text from Input.tokens_ofText_zero p.text 0,
    hs.tokens_eq] at htokens
  exact List.append_cancel_left htokens

theorem Cursor.Round.exists_inside (h : c.Round (.start p.text) rule j pre post A v t us more)
    (hs : c.Site p.text A M B r₁ r₂ m₁ m₂) (hc : c.focus.Fitted) : ∃ M', M = t :: M' := by
  have hMB := h.tokens_inside hs
  cases M with
  | nil => exact absurd (List.forall₂_nil_right_iff.1 (Parse.holds_leaves hs hc)) hc.leaves_ne
  | cons u M =>
    obtain ⟨rfl, _⟩ := List.cons.inj hMB
    exact ⟨M, rfl⟩

/-- The first token of the statement lies where the statement begins. -/
theorem Cursor.Round.start_eq (h : c.Round (.start p.text) rule j pre post A v t us more)
    (hs : c.Site p.text A M B r₁ r₂ m₁ m₂) (hc : c.focus.Fitted) :
    t.span.start = c.focus.span.start := by
  obtain ⟨M', rfl⟩ := h.exists_inside hs hc
  rw [← hs.start]
  exact hs.inside.adjoin.1

/-- The tokens that the round of a statement takes: those of the statement, and those of the entries
behind it. -/
theorem Cursor.Round.trace (h : c.Round (.start p.text) rule j pre post A v t us more)
    (hs : c.Site p.text A M B r₁ r₂ m₁ m₂) {K : Kind → Prop} (hK : Rule.Inline K)
    (hnl : rule ≠ .sos → K .newline) :
    ∃ zs, Trace K j.taken (j.advance (t :: us)) (M ++ zs) (c.focus.skeleton :: more)
        (Rule.statement rule (j.advance (t :: us))).output.diagnostics
        (Rule.statement rule (j.advance (t :: us))).rest ∧
      B = zs ++ (Rule.statement rule (j.advance (t :: us))).rest.tokens ∧
      List.Forall₂ Trace.Leaf zs (leavesOf (Skeleton.eventsAll more)) := by
  have hj : (j.advance (t :: us)).Proper :=
    h.proper.of_suffix rfl ⟨v, h.next.tokens.symm⟩
  have hinside : ¬ Rule.At Grammar.statementEnd (j.advance (t :: us)) := by
    rw [Rule.At, show (j.advance (t :: us)).peek 0 = j.peek 0 from h.next.peek_advance 0]
    exact h.inside
  obtain ⟨xs, f, ht, he⟩ := (Rule.spec_statement hK rule hnl _ hj (Nat.le_refl _) hinside).trace
  obtain rfl := Skeleton.eventsAll_injective (he.symm.trans h.forest)
  have hshown := ht.shown.flip
  rw [Skeleton.eventsAll, leavesOf_append] at hshown
  obtain ⟨z₁, z₂, rfl, h₁, h₂⟩ := Parallel.forall₂_append_left hshown
  have htokens : M ++ B = z₁ ++ (z₂ ++ (Rule.statement rule (j.advance (t :: us))).rest.tokens) := by
    rw [h.tokens_inside hs, ← List.append_assoc, ← ht.tokens_eq]
    rfl
  have hlength : M.length = z₁.length := by
    rw [hs.shown.length_eq, h₁.length_eq]
  obtain ⟨rfl, hB⟩ := List.append_inj htokens hlength
  exact ⟨z₂, ht, hB, h₂.flip⟩

/-- The statement ends with a significant token. -/
theorem Cursor.Round.last_leaf (h : c.Round (.start p.text) rule j pre post A v t us more)
    (hs : c.Site p.text A M B r₁ r₂ m₁ m₂) (hc : c.focus.Fitted)
    (hk : c.focus.kind.isNode = true) :
    ∀ n ∈ c.focus.leaves.getLast?, n.kind.isTrivia = false := by
  obtain ⟨zs, ht, _⟩ := h.trace hs (K := fun _ => True) (fun _ _ => trivial) fun _ => trivial
  have hleaves := hc.leavesOf_eq
  rw [Node.skeleton_of_isNode hk] at ht hleaves
  rw [Skeleton.events, leavesOf_enclosed] at hleaves
  intro n hn
  refine ht.node_ends List.mem_cons_self (n.kind, n.span) ?_
  rw [hleaves, List.getLast?_map, Option.mem_def.1 hn]
  rfl

/-- If the next token behind a statement ends a line, no entries follow it. -/
theorem Cursor.Round.more_eq_nil (h : c.Round (.start p.text) rule j pre post A v t us more)
    (hs : c.Site p.text A M B r₁ r₂ m₁ m₂) {e : Token}
    (hend : Grammar.statementEnd.contains (Input.nth e 0 B).kind = true) : more = [] := by
  by_cases hrule : rule = .sos
  · obtain ⟨zs, ht, hB, hzs⟩ := h.trace hs inline_statementEnd fun hne => absurd hrule hne
    have hj : (j.advance (t :: us)).Proper :=
      h.proper.of_suffix rfl ⟨v, h.next.tokens.symm⟩
    by_cases hnil : zs = []
    · cases hm : more with
      | nil => rfl
      | cons x xs =>
        have hproper := ht.forest_proper hj x (by rw [hm]; simp)
        rw [hnil, hm, Skeleton.eventsAll, leavesOf_append] at hzs
        exact absurd (List.append_eq_nil_iff.1 (List.forall₂_nil_left_iff.1 hzs)).1
          hproper.leaves_ne
    · have hsig : ∃ u ∈ zs, u.kind.isTrivia = false := by
        rcases ht.ends with ⟨hempty, _⟩ | ⟨ys, u, hys, hu, _⟩
        · exact absurd (List.append_eq_nil_iff.1 hempty).2 hnil
        · refine ⟨u, ?_, hu⟩
          have := congrArg List.getLast? hys
          rw [List.getLast?_append_of_ne_nil _ hnil, List.getLast?_concat] at this
          exact List.mem_of_getLast? this
      obtain ⟨hmem, htriv⟩ := Input.nth_zero_append hsig e
        (Rule.statement rule (j.advance (t :: us))).rest.tokens
      rw [← hB] at hmem htriv
      rw [ht.kinds _ (List.mem_append_right _ hmem) htriv] at hend
      cases hend
  · exact h.single hrule

section Single

variable (h : c.Round (.start p.text) rule j pre post A v t us [])
  (hs : c.Site p.text A M B r₁ r₂ m₁ m₂)

include h hs

/-- A statement that is the only node of its round takes its tokens and no others. -/
theorem Cursor.Round.trace_single :
    Trace (fun _ => True) j.taken (j.advance (t :: us)) M [c.focus.skeleton]
        (Rule.statement rule (j.advance (t :: us))).output.diagnostics
        (Rule.statement rule (j.advance (t :: us))).rest ∧
      (Rule.statement rule (j.advance (t :: us))).rest.tokens = B := by
  obtain ⟨zs, ht, hB, hzs⟩ := h.trace hs (K := fun _ => True) (fun _ _ => trivial) fun _ => trivial
  obtain rfl : zs = [] := List.forall₂_nil_right_iff.1 hzs
  rw [List.append_nil] at ht
  exact ⟨ht, hB.symm⟩

theorem Cursor.Round.takenEnd_rest (hc : c.focus.Fitted) :
    (Rule.statement rule (j.advance (t :: us))).rest.takenEnd = c.focus.span.stop := by
  obtain ⟨M', rfl⟩ := h.exists_inside hs hc
  obtain ⟨ht, _⟩ := h.trace_single hs
  rcases ht.ends with ⟨hnil, _⟩ | ⟨ms, u, hms, _, hu, _⟩
  · cases hnil
  · have hinside := hs.inside
    rw [hms] at hinside
    rw [hu, ← hinside.stop_last, hs.stop]

/-- What is reported about a statement lies in it. -/
theorem Cursor.Round.diagnostics_within :
    ∀ d ∈ (Rule.statement rule (j.advance (t :: us))).output.diagnostics,
      c.focus.span.contains d.span = true := by
  intro d hd
  have hat := ((h.trace_single hs).1.located d hd).resolve_right fun hlt => Nat.lt_irrefl _ hlt.1
  obtain ⟨h₁, _, h₃⟩ := located_within hs.inside.adjoin hat
  rw [hs.start] at h₁
  rw [hs.stop] at h₃
  exact Cursor.contains_iff.2 ⟨h₁, h₃⟩

end Single

end Round

/-! ## The two documents -/

namespace Parallel

/-- Nothing moves, and the inputs part somewhere. -/
def still (tail tail' : List Token) : Parallel := ⟨id, fun _ => False, tail, tail'⟩

/-- Everything moves. -/
def shifted (δ : Int) : Parallel := ⟨fun a => shiftOffset a δ, fun _ => False, [], []⟩

variable {a a' : List Token} {δ : Int}

theorem Tokens.of_moved_zero {t u : Token} (h : t.Moved 0 u) : (still a a').Tokens t u :=
  .of_same h.kind h.text h.span_eq

theorem Tokens.of_moved {t u : Token} (h : t.Moved δ u) : (shifted δ).Tokens t u :=
  .of_same h.kind h.text h.span

theorem Diagnostics.of_still {d d' : Diagnostic} (h : (still a a').Diagnostics d d') : d' = d := by
  obtain ⟨problem, span⟩ := d
  obtain ⟨problem', span'⟩ := d'
  obtain ⟨hs, hp⟩ := h
  cases hs
  cases hp.resolve_right id
  rfl

theorem Outputs.of_still {o o' : Output} (h : (still a a').Outputs o o') :
    o'.events = o.events ∧ o'.diagnostics = o.diagnostics := by
  refine ⟨h.events.trans (map_move_id _), ?_⟩
  have heq := h.diagnostics.imp fun d d' hd => hd.of_still.symm
  exact (List.forall₂_eq_eq_eq ▸ heq : o.diagnostics = o'.diagnostics).symm

theorem forall₂_trans_still {C : Parallel} {xs ys zs : List Token} (h : List.Forall₂ C.Tokens xs ys)
    (h' : List.Forall₂ (still a a').Tokens ys zs) : List.Forall₂ C.Tokens xs zs := by
  induction h generalizing zs with
  | nil =>
    cases h'
    exact .nil
  | cons h _ ih =>
    cases h' with
    | cons k hs =>
      have hspan : _ = _ := k.span
      refine .cons ⟨k.kind.trans h.kind, hspan.trans h.span, k.free.trans h.free,
        k.sosType.trans h.sosType, k.signed.trans h.signed, k.unclosed.trans h.unclosed, ?_⟩ (ih hs)
      exact h.text.imp_left fun ht => (k.text.resolve_right id).trans ht

/-- Inputs that part at tokens of one kind part at a statement if one of them does. -/
theorem partsAt_still {t y : Token} {us T : List Token} (hkind : y.kind = t.kind)
    (ht : t.kind.isTrivia = false) (hend : Grammar.statementEnd.contains t.kind = false) :
    (still (t :: us) (y :: T)).PartsAt t us := by
  have hrun : ∀ (u : Token) (ws : List Token), u.kind = t.kind → Input.newlineRun (u :: ws) = 0 := by
    intro u ws hu
    have hnewline : u.kind ≠ .newline := by
      intro hk
      rw [← hu, hk] at hend
      cases hend
    rw [Input.newlineRun, if_neg (by simp [hu, ht]), if_neg hnewline]
  have hy : y.kind.isTrivia = false := hkind ▸ ht
  refine ⟨⟨fun a a' _ _ => ?_, ?_, fun a a' _ _ => ?_⟩, rfl, ht, hend⟩
  · change (Input.nth a' 0 (y :: T)).kind = (Input.nth a 0 (t :: us)).kind
    rw [Input.nth_zero_cons hy, Input.nth_zero_cons ht, hkind]
  · change Input.newlineRun (y :: T) = Input.newlineRun (t :: us)
    rw [hrun y T hkind, hrun t us rfl]
  · change (Input.nth a' (Input.newlineRun (t :: us)) (y :: T)).kind =
      (Input.nth a (Input.newlineRun (t :: us)) (t :: us)).kind
    rw [hrun t us rfl, Input.nth_zero_cons hy, Input.nth_zero_cons ht, hkind]

end Parallel

namespace Parse

/-- Two documents that differ by one statement: what stands before it, the statement, and what stands
behind it. -/
structure Exchange (c : Cursor) (δ : Int) (o o' piece lead old rest : Output)
    (moved : List Diagnostic) : Prop where
  before : Crumb.eventsBefore c.path = .start .document :: lead.events
  output : o = .enclosed .document (lead ++ (old ++ rest))
  self : old.events = c.focus.skeleton.events
  events : o'.events = .start .document :: (lead.events ++ (piece.events ++
    rest.events.map (Event.move fun a => shiftOffset a δ)) ++ [.finish])
  diagnostics : o'.diagnostics = lead.diagnostics ++ (piece.diagnostics ++ moved)
  early : ∀ d ∈ lead.diagnostics, d.span.start < c.focus.span.start
  within : ∀ d ∈ old.diagnostics, c.focus.span.contains d.span = true
  inside : ∀ d ∈ piece.diagnostics,
    c.focus.span.start ≤ d.span.start ∧ (d.span.stop : Int) ≤ c.focus.span.stop + δ
  later : List.Forall₂ (fun d d' => d' = d.shiftFrom c.focus.span.stop δ ∧
    (d.span.start < c.focus.span.start ∨
      c.focus.span.stop ≤ d.span.start ∧ c.focus.span.stop < d.span.stop)) rest.diagnostics moved

section Exchanged

variable {f : List Skeleton} {p : Parse} {e : Edit} {new mid : Text} {c : Cursor} {rule : StatementRule} {s : Reader}
  {mode mode' m₁ m₂ : Mode} {fragment : Fragment} {A M B us T v v' ys : List Token} {t y : Token}
  {r₁ r₂ r r' : Reader} {j j' alone : Input} {pre pre' : Output} {post post' : Input → Output}
  {more : List Skeleton}

/-- The statement in the document of the new text: what leads to it is the same as in the old
document, its tokens are those that it has alone, and the document goes on behind it in the same
way. -/
structure Counterpart (text new : Text) (rule : StatementRule) (alone : Input) (pre : Output)
    (j : Input) (post : Input → Output) (v : List Token) (t : Token) (us : List Token)
    (pre' : Output) (j' : Input) (post' : Input → Output) (v' : List Token) (y : Token)
    (T : List Token) : Prop where
  reaches : Rule.Reaches (.start new) rule j' pre' post'
  proper : j'.Proper
  next : j'.Next v' y T
  inside : ¬ Rule.At Grammar.statementEnd j'
  trivia : List.Forall₂ (Parallel.still (t :: us) (y :: T)).Tokens v v'
  lead : Rule.Lead (.still (t :: us) (y :: T)) t.span.start (.start text) pre j pre' j'
  tokens : List.Forall₂ (Token.Moved 0) alone.tokens (y :: T)
  later : ∀ (D : Parallel) (k k' : Input), D.tail = [] → D.tail' = [] → D.Inputs k k' →
    Rule.Continues (.still (t :: us) (y :: T)) D t.span.start k (post k) (post' k')

/-- The new tokens from the statement on begin like the old ones. -/
theorem Replaced.exists_tokens (h : p.Replaced e new c rule s mode fragment)
    (hc : c.Placed f p.text.byteSize) (hs : c.Site p.text A M B r₁ r₂ m₁ m₂)
    (hnew : new = Reader.Reads.textOf A ++ (mid ++ r₂.rest))
    (hR : c.Round (.start p.text) rule j pre post A v t us more)
    (hr : Resumed c rule fragment new r mode ys r' mode') :
    ∃ A' y T, lex new = A' ++ y :: T ∧ y.kind = t.kind ∧ List.Forall₂ (Token.Moved 0) A A' ∧
      List.Forall₂ (Token.Moved 0) (resumed c new mode).tokens (y :: T) ∧
      Grammar.statementEnd.contains t.kind = false := by
  obtain ⟨M', rfl⟩ := hR.exists_inside hs hc.fitted.1
  obtain ⟨x, zs, rfl, _, hend⟩ := h.first hr
  have hkind := h.first_kind hr hc.fitted.1 hs
  obtain ⟨_, htr, _⟩ := hr.trace
  obtain ⟨A', T, hT, hA, hTT⟩ := h.tokens hr hc.fitted.2 hs hnew (List.cons_ne_nil _ _)
  obtain ⟨y, T, rfl, hy⟩ : ∃ y T', T = y :: T' ∧ x.Moved 0 y := by
    have htokens := htr.tokens_eq
    rw [htokens] at hTT
    cases hTT with
    | cons hy _ => exact ⟨_, _, rfl, hy⟩
  exact ⟨A', y, T, hT, hy.kind.trans hkind, hA, hTT, hkind ▸ hend⟩

/-- **The document of the new text reaches the statement as the old document does.** -/
theorem Replaced.exists_counterpart (h : p.Replaced e new c rule s mode fragment)
    (hc : c.Placed f p.text.byteSize) (hs : c.Site p.text A M B r₁ r₂ m₁ m₂)
    (hnew : new = Reader.Reads.textOf A ++ (mid ++ r₂.rest))
    (hR : c.Round (.start p.text) rule j pre post A v t us more)
    (hr : Resumed c rule fragment new r mode ys r' mode') :
    ∃ pre' j' post' v' y T, Counterpart p.text new rule (resumed c new mode) pre j post v t us
      pre' j' post' v' y T := by
  obtain ⟨A', y, T, hT, hkind, hA, hTT, hend⟩ := h.exists_tokens hc hs hnew hR hr
  have hinputs : (Parallel.still (t :: us) (y :: T)).Inputs (.start p.text) (.start new) :=
    ⟨⟨A, A', hR.tokens, (Input.tokens_ofText_zero new 0).trans hT,
      hA.imp fun _ _ => .of_moved_zero⟩, rfl, Input.proper_ofText .., Input.proper_ofText ..⟩
  have hord : Ordered (Input.start p.text).tokens := by
    rw [show (Input.start p.text).tokens = lex p.text from Input.tokens_ofText_zero p.text 0]
    exact ordered_of_adjoin (adjoin_lex p.text)
  obtain ⟨j', pre', post', hreaches, hlead, hlater⟩ := hR.reaches.lead
    (Parallel.partsAt_still hkind hR.next.significant hend) hinputs hord (by
      change (t :: us).length ≤ j.tokens.length
      rw [hR.next.tokens, List.length_append]
      exact Nat.le_add_left _ _)
  obtain ⟨w, v', hw, hv', hvv⟩ := hlead.inputs.tokens
  obtain rfl : v = w := by
    rw [hR.next.tokens] at hw
    exact List.append_cancel_right hw
  have hnext : j'.Next v' y T :=
    ⟨hv', Parallel.AllTrivia.of_forall₂ hvv hR.next.trivia, hkind ▸ hR.next.significant⟩
  refine ⟨pre', j', post', v', y, T, hreaches, hlead.inputs.proper', hnext, ?_, hvv, hlead, hTT,
    hlater⟩
  rw [Rule.At, hnext.peek_zero, hkind, hend]
  exact Bool.false_ne_true

section Reached

variable (hw : Counterpart p.text new rule alone pre j post v t us pre' j' post' v' y T)

include hw

theorem Counterpart.clean : v'.filterMap Rule.commentDiagnostic? = [] :=
  hw.reaches.comments_eq_nil hw.next

/-- The statement takes the trivia before it, and then what it takes without them. -/
theorem Counterpart.run :
    Rule.statement rule j' = ⟨(), .trivia v' ++ (Rule.statement rule (j'.advance (y :: T))).output,
      (Rule.statement rule (j'.advance (y :: T))).rest⟩ := by
  obtain ⟨_, hopens, _⟩ := Rule.statement_opens hw.proper hw.next hw.clean rule hw.inside
  exact hopens.advance

/-- The statement alone is read as in the document. -/
theorem Counterpart.outcomes (halone : alone.Proper) (hend : alone.takenEnd = j.takenEnd)
    (hinside : ¬ Rule.At Grammar.statementEnd alone) :
    (Parallel.still [] []).Outcomes (Rule.statement rule alone)
      (Rule.statement rule (j'.advance (y :: T))) := by
  have hinputs : (Parallel.still [] []).Inputs alone (j'.advance (y :: T)) :=
    ⟨⟨_, _, (List.append_nil _).symm, (List.append_nil _).symm,
      hw.tokens.imp fun _ _ => .of_moved_zero⟩, hw.lead.inputs.takenEnd.trans (hend ▸ rfl), halone,
      hw.proper.of_suffix rfl ⟨v', hw.next.tokens.symm⟩⟩
  exact (Rule.spec_statement (K := fun _ => True) (fun _ _ => trivial) rule (fun _ => trivial) alone
    halone (Nat.le_refl _) hinside).alike _ _ (Parallel.fenced_nil rfl rfl) hinputs (Nat.zero_le _)

end Reached

/-- A line ends behind the old statement as behind the new one. -/
theorem Replaced.more_eq_nil (h : p.Replaced e new c rule s mode fragment)
    (hs : c.Site p.text A M B r₁ r₂ m₁ m₂)
    (hR : c.Round (.start p.text) rule j pre post A v t us more)
    (hbehind : List.Forall₂ (Token.Moved e.delta) B
      (Rule.statement rule (resumed c new mode)).rest.tokens) : more = [] := by
  have hproper : (resumed c new mode).Proper := Input.proper_ofText ..
  have hspec := Rule.spec_statement (K := fun _ => True) (fun _ _ => trivial) rule (fun _ => trivial)
    (resumed c new mode) hproper (Nat.le_refl _) h.parsed.inside
  have hkind := Parallel.kind_nth_zero (C := Parallel.shifted e.delta)
    (Parallel.fenced_nil rfl rfl).toAligned (hbehind.imp fun _ _ => Parallel.Tokens.of_moved)
    (Input.proper_ofText .. : (Input.start p.text).Proper).eof (hspec.proper hproper).eof
  change (Input.nth _ 0 (_ ++ [])).kind = (Input.nth (Input.start p.text).eof 0 (_ ++ [])).kind at hkind
  rw [List.append_nil, List.append_nil] at hkind
  refine hR.more_eq_nil hs (e := (Input.start p.text).eof) ?_
  rw [← hkind]
  exact hspec.post.2

/-- The inputs behind the old and the new statement. -/
theorem inputs_behind (hc : c.focus.Fitted) (hsame : (Parallel.still [] []).Outcomes (Rule.statement rule alone)
      (Rule.statement rule (j'.advance (y :: T))))
    (hR : c.Round (.start p.text) rule j pre post A v t us [])
    (hs : c.Site p.text A M B r₁ r₂ m₁ m₂) {δ : Int}
    (hstop : ((Rule.statement rule alone).rest.takenEnd : Int) = c.focus.span.stop + δ)
    (hbehind : List.Forall₂ (Token.Moved δ) B (Rule.statement rule alone).rest.tokens) :
    (Parallel.shifted δ).Inputs (Rule.statement rule (j.advance (t :: us))).rest
      (Rule.statement rule (j'.advance (y :: T))).rest := by
  obtain ⟨htrace, hB⟩ := hR.trace_single hs
  obtain ⟨x, x', hx, hx', hxx⟩ := hsame.rest.tokens
  change _ = x ++ [] at hx
  rw [hx, List.append_nil] at hbehind
  refine ⟨⟨B, x', hB.trans (List.append_nil _).symm, hx', ?_⟩, ?_, htrace.proper ?_,
    hsame.rest.proper'⟩
  · exact Parallel.forall₂_trans_still (hbehind.imp fun _ _ => .of_moved) hxx
  · rw [hR.takenEnd_rest hs hc]
    exact hsame.rest.takenEnd.trans (shiftOffset_eq hstop).symm
  · exact hR.proper.of_suffix rfl ⟨v, hR.next.tokens.symm⟩

/-- What is reported about the new statement lies in it. -/
theorem Resumed.diagnostics_inside (hr : Resumed c rule fragment new r mode ys r' mode') :
    ∀ d ∈ fragment.output.diagnostics,
      c.focus.span.start ≤ d.span.start ∧ d.span.stop ≤ fragment.stop := by
  intro d hd
  obtain ⟨_, htr, _⟩ := hr.trace
  have hat := (htr.located d hd).resolve_right fun hlt => Nat.lt_irrefl _ hlt.1
  obtain ⟨h₁, _, h₃⟩ := located_within hr.reads.adjoin hat
  rw [hr.offset] at h₁
  rw [hr.stop] at h₃
  exact ⟨h₁, h₃⟩

/-- The nodes of the new statement. -/
theorem Resumed.forest (hr : Resumed c rule fragment new r mode ys r' mode') :
    ∃ g, fragment.output.events = Skeleton.eventsAll g ∧ (∀ x ∈ g, x.Proper) ∧
      Adjoin c.focus.span.start fragment.stop (leafSpans (Skeleton.eventsAll g)) := by
  obtain ⟨g, htr, hg⟩ := hr.trace
  refine ⟨g, hg, htr.forest_proper (Input.proper_ofText ..), ?_⟩
  rw [leafSpans_of_forall₂ htr.shown, ← hr.offset, ← hr.stop]
  exact hr.reads.adjoin

/-- A report behind the statement is one about what stands behind it, or about a keyword before it. -/
theorem shiftFrom_of_later {δ : Int} {k : Input} {d d' : Diagnostic}
    (hs : c.Site p.text A M B r₁ r₂ m₁ m₂) (hk : k.tokens = B)
    (hsolid : c.focus.span.start < c.focus.span.stop)
    (hd : Rule.Later (.still us T) (.shifted δ) c.focus.span.start k d d') :
    d' = d.shiftFrom c.focus.span.stop δ ∧ (d.span.start < c.focus.span.start ∨
      c.focus.span.stop ≤ d.span.start ∧ c.focus.span.stop < d.span.stop) := by
  cases hd with
  | behind hd hat =>
    obtain ⟨h₁, h₂⟩ := located_behind hs.stop_le_of_mem_after (hk ▸ hat)
    refine ⟨?_, .inr ⟨h₁, h₂⟩⟩
    obtain ⟨problem, span⟩ := d
    obtain ⟨problem', span'⟩ := d'
    obtain ⟨hspan, hproblem⟩ := hd
    cases hspan
    cases hproblem.resolve_right id
    rw [Diagnostic.shiftFrom, if_pos h₁]
    rfl
  | ahead hd hlt =>
    refine ⟨?_, .inl hlt⟩
    rw [hd.of_still, Diagnostic.shiftFrom, if_neg (by omega)]

/-- **A document with a statement parsed again in the place of the old one.** -/
theorem Replaced.exchange (h : p.Replaced e new c rule s mode fragment)
    (hc : c.Placed f p.text.byteSize)
    (he : (Rule.document (.start p.text)).output.events =
      .start .document :: (Skeleton.eventsAll f ++ [.finish]))
    (hs : c.Site p.text A M B r₁ r₂ m₁ m₂)
    (hnew : new = Reader.Reads.textOf A ++ (mid ++ r₂.rest))
    (hmid : (mid.byteSize : Int) = (Reader.Reads.textOf M).byteSize + e.delta) :
    (fragment.stop : Int) = c.focus.span.stop + e.delta ∧
      (∃ g, fragment.output.events = Skeleton.eventsAll g ∧ (∀ x ∈ g, x.Proper) ∧
        Adjoin c.focus.span.start fragment.stop (leafSpans (Skeleton.eventsAll g))) ∧
      ∃ lead old rest moved, Exchange c e.delta (Rule.document (.start p.text)).output
        (Rule.document (.start new)).output fragment.output lead old rest moved := by
  have hnode : c.focus.kind.isNode = true := by
    have hout := h.outer
    rw [isOuterStatement, Bool.and_eq_true] at hout
    exact Kind.isNode_of_isStatement hout.1
  obtain ⟨j, pre, post, v, t, us, more, hR⟩ := hc.exists_round hs he h.outer h.ruleAt fun _ => h.starts
  obtain ⟨r, ys, r', mode', hr⟩ := h.exists_reads (takeBytes_start hs hnew)
  obtain ⟨hstop, hbehind⟩ := h.behind hr hc.fitted.1 hs hnew hmid (hR.last_leaf hs hc.fitted.1 hnode)
  obtain rfl := h.more_eq_nil hs hR hbehind
  obtain ⟨pre', j', post', v', y, T, hw⟩ := h.exists_counterpart hc hs hnew hR hr
  have hsame := hw.outcomes (Input.proper_ofText ..) hR.takenEnd h.parsed.inside
  have hbehind' := inputs_behind hc.fitted.1 hsame hR hs (h.parsed.stop ▸ hstop) hbehind
  have hlater := hw.later _ _ _ rfl rfl hbehind'
  have hstart := hR.start_eq hs hc.fitted.1
  have hclean : (Output.trivia v).diagnostics = [] := hR.reaches.comments_eq_nil hR.next
  have hclean' : (Output.trivia v').diagnostics = [] := hw.clean
  obtain ⟨hpre, hpre'⟩ := hw.lead.outputs.of_still
  obtain ⟨hv, _⟩ := (Parallel.Outputs.trivia hw.trivia).of_still
  obtain ⟨hpiece, hpiece'⟩ := hsame.output.of_still
  have hold := hR.reaches.document_eq (Input.proper_ofText ..) hR.proper hR.inside
  have hnew' := hw.reaches.document_eq (Input.proper_ofText ..) hw.proper hw.inside
  rw [hR.run] at hold
  rw [hw.run] at hnew'
  refine ⟨hstop, hr.forest, pre ++ .trivia v, (Rule.statement rule (j.advance (t :: us))).output,
    post (Rule.statement rule (j.advance (t :: us))).rest,
    (post' (Rule.statement rule (j'.advance (y :: T))).rest).diagnostics, {
      before := by simpa only [Output.events_append] using hR.before
      output := ?_
      self := ?_
      events := ?_
      diagnostics := ?_
      early := ?_
      within := hR.diagnostics_within hs
      inside := ?_
      later := ?_ }⟩
  · rw [hold]
    simp only [Output.append_assoc]
  · rw [hR.forest, Skeleton.eventsAll_singleton]
  · rw [hnew', h.parsed.output]
    simp only [Output.enclosed, Output.events_append, hpre, hv, hpiece, hlater.events,
      List.append_assoc]
    rfl
  · rw [hnew', h.parsed.output]
    simp only [Output.enclosed, Output.diagnostics_append, hpre', hpiece', hclean, hclean',
      List.append_assoc]
  · intro d hd
    rw [Output.diagnostics_append, hclean, List.append_nil] at hd
    rw [← hstart]
    exact hw.lead.early d hd
  · intro d hd
    obtain ⟨h₁, h₂⟩ := hr.diagnostics_inside d hd
    omega
  · exact hlater.diagnostics.imp fun d d' hd =>
      shiftFrom_of_later hs (hR.trace_single hs).2 hc.fitted.1.solid (hstart ▸ hd)

end Exchanged

/-! ## The diagnostics -/

section Arranged

variable {c : Cursor} {δ : Int} {o o' piece lead old rest : Output} {moved : List Diagnostic}
  (h : Exchange c δ o o' piece lead old rest moved)

include h

/-- The diagnostics beside the statement: those before it stay, those behind it move. -/
theorem Exchange.map_shiftFrom (hc : c.focus.span.start < c.focus.span.stop) :
    (lead.diagnostics ++ rest.diagnostics).map (Diagnostic.shiftFrom c.focus.span.stop δ) =
      lead.diagnostics ++ moved := by
  rw [List.map_append]
  congr 1
  · refine (List.map_congr_left fun d hd => ?_).trans (List.map_id _)
    have := h.early d hd
    rw [Diagnostic.shiftFrom, if_neg (by omega)]
    rfl
  · have hlater := h.later
    generalize rest.diagnostics = ds at hlater ⊢
    clear h
    induction hlater with
    | nil => rfl
    | cons hd _ ih => rw [List.map_cons, ih, ← hd.1]

/-- The diagnostics inside the statement go, all others are kept. -/
theorem Exchange.filter_kept :
    o.diagnostics.filter (fun d => !c.focus.span.contains d.span) =
      lead.diagnostics ++ rest.diagnostics := by
  have hrest : ∀ d ∈ rest.diagnostics, d.span.start < c.focus.span.start ∨
      c.focus.span.stop ≤ d.span.start ∧ c.focus.span.stop < d.span.stop := by
    intro d hd
    obtain ⟨n, hn, rfl⟩ := List.mem_iff_getElem.1 hd
    exact (h.later.get hn (h.later.length_eq ▸ hn)).2
  have hds : o.diagnostics = lead.diagnostics ++ (old.diagnostics ++ rest.diagnostics) := by
    rw [h.output]
    rfl
  rw [hds, List.filter_append, List.filter_append, List.filter_eq_self.2, List.filter_eq_nil_iff.2,
    List.nil_append, List.filter_eq_self.2]
  · intro d hd
    rw [Bool.not_eq_true', ← Bool.not_eq_true, Cursor.contains_iff]
    have := hrest d hd
    omega
  · intro d hd
    simp [h.within d hd]
  · intro d hd
    rw [Bool.not_eq_true', ← Bool.not_eq_true, Cursor.contains_iff]
    have := h.early d hd
    omega

/-- No diagnostic of the new statement is at the span of one that was moved. -/
theorem Exchange.apart (hc : c.focus.span.start < c.focus.span.stop)
    (hle : ∀ d ∈ rest.diagnostics, d.span.start ≤ d.span.stop) :
    ∀ d ∈ piece.diagnostics, ∀ d' ∈ moved, d.span ≠ d'.span := by
  intro d hd d' hd' heq
  obtain ⟨h₁, h₂⟩ := h.inside d hd
  obtain ⟨n, hn, rfl⟩ := List.mem_iff_getElem.1 hd'
  have hn' : n < rest.diagnostics.length := h.later.length_eq ▸ hn
  obtain ⟨hshift, hplace⟩ := h.later.get hn' hn
  have hle' := hle _ (List.getElem_mem hn')
  simp only [List.get_eq_getElem] at hshift hplace
  rw [hshift, Diagnostic.shiftFrom] at heq
  generalize rest.diagnostics[n] = a at heq hplace hle'
  split_ifs at heq with hcase
  · rw [heq] at h₂
    simp only [Span.shift] at h₂
    rw [shiftOffset_cast (by omega)] at h₂
    omega
  · rw [heq] at h₁
    omega

/-- **The diagnostics beside the old statement and those of the new one are, in order, those of the
new document.** -/
theorem Exchange.sorted_eq (hc : c.focus.span.start < c.focus.span.stop)
    (hδ : (c.focus.span.start : Int) ≤ c.focus.span.stop + δ)
    (hle : ∀ d ∈ o.diagnostics, d.span.start ≤ d.span.stop) :
    Diagnostic.sorted (((Diagnostic.sorted o.diagnostics).filter fun d =>
        !c.focus.span.contains d.span).map (Diagnostic.shiftFrom c.focus.span.stop δ) ++
          piece.diagnostics) = Diagnostic.sorted o'.diagnostics := by
  have hkept := h.filter_kept
  have hmem : ∀ d ∈ lead.diagnostics ++ rest.diagnostics, d ∈ o.diagnostics := by
    intro d hd
    rw [← hkept] at hd
    exact List.mem_of_mem_filter hd
  have hbeside : ∀ d ∈ lead.diagnostics ++ rest.diagnostics,
      d.Beside c.focus.span.start c.focus.span.stop := by
    intro d hd
    refine ⟨hle d (hmem d hd), ?_⟩
    rcases List.mem_append.1 hd with hd | hd
    · exact .inl (h.early d hd)
    · obtain ⟨n, hn, rfl⟩ := List.mem_iff_getElem.1 hd
      have := (h.later.get hn (h.later.length_eq ▸ hn)).2
      simp only [List.get_eq_getElem] at this
      omega
  have hmoved : ((Diagnostic.sorted o.diagnostics).filter fun d =>
      !c.focus.span.contains d.span).map (Diagnostic.shiftFrom c.focus.span.stop δ) =
        Diagnostic.sorted (lead.diagnostics ++ moved) := by
    rw [Diagnostic.filter_sorted, hkept, Diagnostic.map_sorted, h.map_shiftFrom hc]
    intro a ha b hb
    exact Diagnostic.notAfter_shiftFrom (Nat.le_of_lt hc) hδ (hbeside a ha) (hbeside b hb)
  rw [hmoved]
  refine Diagnostic.sorted_congr fun s => ?_
  rw [List.filter_append, Diagnostic.filter_isAt_sorted, h.diagnostics, List.filter_append,
    List.filter_append, List.filter_append, List.append_assoc]
  congr 1
  -- of the new statement and of what comes behind it, at most one has reports at a span
  have hle' : ∀ d ∈ rest.diagnostics, d.span.start ≤ d.span.stop :=
    fun d hd => hle d (hmem d (List.mem_append_right _ hd))
  by_cases hp : piece.diagnostics.filter (Diagnostic.isAt s) = []
  · rw [hp, List.append_nil, List.nil_append]
  · obtain ⟨d, hd⟩ := List.exists_mem_of_ne_nil _ hp
    obtain ⟨hd, hds⟩ := List.mem_filter.1 hd
    have hm : moved.filter (Diagnostic.isAt s) = [] := by
      rw [List.filter_eq_nil_iff]
      intro d' hd' hds'
      refine h.apart hc hle' d hd d' hd' ?_
      simp only [Diagnostic.isAt, beq_iff_eq] at hds hds'
      rw [hds, hds']
    rw [hm, List.append_nil, List.nil_append]

end Arranged

/-! ## The answer -/

/-- A statement around an edit stands below the root. -/
theorem Faithful.below_of_outer {p : Parse} {e : Edit} {c : Cursor} (hp : p.Faithful)
    (hmem : c ∈ (p.tree.cover e.span).ancestors) (hout : isOuterStatement c = true) :
    c.path ≠ [] ∧ c.focus.span.contains e.span = true := by
  obtain ⟨f, _, hroot⟩ := hp.tree
  have hpath : c.path ≠ [] := by
    intro hnil
    rw [isOuterStatement, hnil] at hout
    simp at hout
  exact ⟨hpath, (Cursor.ancestor_placed hroot hmem hpath).2⟩

/-- A statement that is parsed again stands below the root, around the edit. -/
theorem Replaced.below {p : Parse} {e : Edit} {new : Text} {c : Cursor} {rule : StatementRule}
    {s : Reader} {mode : Mode} {fragment : Fragment} (h : p.Replaced e new c rule s mode fragment)
    (hp : p.Faithful) : c.path ≠ [] ∧ c.focus.span.contains e.span = true :=
  hp.below_of_outer h.mem h.outer

/-- **An edit that is answered by parsing one statement gives what parsing anew gives.** -/
theorem reparseStatement_faithful {p : Parse} {e : Edit} {a m z : Text} {answer : Reparse}
    (hp : p.Faithful) (hcap : p.capReached = false) (hcut : e.Cuts p.text a m z)
    (h : (p.reparseStatement e (a ++ e.insert ++ z)).1 = some answer) :
    answer.parse.Faithful ∧ answer.parse.text = a ++ e.insert ++ z ∧
      answer.parse.options = p.options := by
  obtain ⟨c, rule, s, mode, fragment, statement, allocated, hR, hnodes, hanswer⟩ :=
    reparseStatement_cases h
  obtain ⟨hpath, hin⟩ := hR.below hp
  have hroot := Cursor.ancestor_root hR.mem
  obtain ⟨f, A, M, B, r₁, r₂, m₁, m₂, mid, he, hplaced, hs, hnew, hmid⟩ :=
    hp.exists_edited hcut hroot hpath hin
  have hsize := hs.byteSize_eq hnew hmid
  generalize a ++ e.insert ++ z = new at hR hanswer hnew hsize
  obtain ⟨hstop, ⟨g, hg, hproper, hadjoin⟩, lead, old, rest, moved, hX⟩ :=
    hR.exchange hplaced he hs hnew hmid
  have hsolid := hplaced.fitted.1.solid
  have hδ : (c.focus.span.start : Int) ≤ c.focus.span.stop + e.delta := by
    have := hs.byteSize_inside
    omega
  obtain ⟨hfitted, hspan, hskeleton, hnumbered, hallocated⟩ :=
    Node.ofEvents_single hproper hadjoin (hg ▸ hnodes)
  rw [← hg] at hskeleton
  obtain ⟨g', hg', hevents⟩ := hplaced.splice hfitted (by rw [hspan]) (by rw [hspan]; exact hstop)
    hsize
  have hsorted := hp.diagnostics_eq_sorted hcap
  have hids : (c.root.descendants.map Node.id).Nodup := hroot ▸ hp.ids
  have hold : ∀ id ∈ c.root.descendants.map Node.id, id < p.tree.allocated := hroot ▸ hp.allocated
  rw [hanswer]
  refine ⟨⟨⟨g', ?_, hg'⟩, ?_, ?_, ?_⟩, rfl, rfl⟩
  · change (Rule.document (.start new)).output.events = _
    rw [hevents, hX.before, hskeleton, hX.events]
    have hafter : Crumb.eventsAfter c.path = rest.events ++ [.finish] := by
      have h₁ := hplaced.events_eq
      rw [← he, hX.output, hX.before, ← hX.self] at h₁
      simp only [Output.enclosed, Output.events_append, List.cons_append, List.append_assoc,
        List.cons.injEq, true_and, List.append_cancel_left_eq] at h₁
      exact h₁.symm
    rw [hafter, List.map_append]
    simp only [List.cons_append, List.append_assoc]
    rfl
  · change Diagnostic.arrange _ _ = Diagnostic.arrange _ _
    refine Diagnostic.arrange_congr ?_
    rw [hsorted]
    exact hX.sorted_eq hsolid hδ (Rule.document_span_le p.text)
  · exact Cursor.nodup_splice_ids hold hids hnumbered e.delta
  · rw [hallocated]
    exact Cursor.splice_ids_lt hold hnumbered e.delta

/-- An edit that is answered by parsing one statement puts a new node in place of the old one. Its
ids are given out in order from the first free one, and all of its nodes count as made anew. -/
theorem reparseStatement_spliced {p : Parse} {e : Edit} {a m z : Text} {answer : Reparse}
    (hp : p.Faithful) (hcut : e.Cuts p.text a m z)
    (h : (p.reparseStatement e (a ++ e.insert ++ z)).1 = some answer) :
    ∃ c n, (p.tree.cover e.span).ancestors.find? isOuterStatement = some c ∧
      p.Spliced e c n answer.parse ∧
      n.descendants.map Node.id = List.range' p.tree.allocated n.size ∧
      answer.parse.tree.allocated = p.tree.allocated + n.size ∧
      answer.parse.tree.dead = p.tree.dead + c.focus.size ∧
      answer.parse.tree.dead * 100 ≤ answer.parse.tree.allocated * p.options.maxDeadPercent ∧
      answer.strategy = .statement ∧ answer.reused = answer.parse.tree.nodeCount - n.size ∧
      answer.reparsed = n.size := by
  obtain ⟨c, rule, s, mode, fragment, statement, allocated, hR, hfind, hnodes, hdead, hanswer⟩ :=
    reparseStatement_answer h
  obtain ⟨hpath, hin⟩ := hR.below hp
  have hroot := Cursor.ancestor_root hR.mem
  obtain ⟨f, A, M, B, r₁, r₂, m₁, m₂, mid, he, hplaced, hs, hnew, hmid⟩ :=
    hp.exists_edited hcut hroot hpath hin
  obtain ⟨hstop, ⟨g, hg, hproper, hadjoin⟩, _⟩ := hR.exchange hplaced he hs hnew hmid
  obtain ⟨hfitted, hspan, _, hnumbered, hallocated⟩ :=
    Node.ofEvents_single hproper hadjoin (hg ▸ hnodes)
  rw [hanswer]
  exact ⟨c, statement, hfind, ⟨hroot, hpath, hin, hfitted, by rw [hspan], by rw [hspan]; exact hstop,
    rfl⟩, hnumbered, hallocated, rfl, hdead, rfl, rfl, rfl⟩

end Parse

end LpFormat
