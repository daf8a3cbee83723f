import LpFormat.Proofs.Parsing.Cut

/-!
# A statement without what follows it

A statement that is the first node of its round is read alike when the input ends behind it. This is
clear where the round ends with it. A line of SOS entries is read in one round; its first entry may
be followed by more, and is then cut off in the middle of a line.

* `Rule.statement_entries`, `Rule.sosItem_entries`: rounds of several nodes are lines of entries;
* `Rule.Severs`: what a round leaves for its first node, and what the node alone leaves;
* **`Rule.severs`**: both agree.
-/

namespace LpFormat

namespace Parallel.Inputs

variable {C : Parallel} {i i' : Input}

/-- Every token that the second input has ahead corresponds to one of the first. -/
theorem peek_or_eof (h : C.Inputs i i') (hC : C.tail' = []) (n : Nat) :
    C.Tokens (i.peek n) (i'.peek n) ∨ (i'.peek n).kind = .eof := by
  obtain ⟨w, w', hw, hw', hall⟩ := h.tokens
  rw [hC, List.append_nil] at hw'
  have heof := h.proper'.eof
  simp only [Input.peek, hw, hw']
  clear hw hw' h
  induction hall generalizing n with
  | nil => exact .inr heof
  | @cons t t' w w' ht _ ih =>
    by_cases htr : t.kind.isTrivia = true
    · rw [List.cons_append, Input.nth_cons_trivia htr, Input.nth_cons_trivia (ht.kind ▸ htr)]
      exact ih n
    · have hsig : t.kind.isTrivia = false := by simpa using htr
      have hsig' : t'.kind.isTrivia = false := by rwa [ht.kind]
      cases n with
      | zero =>
        rw [List.cons_append, Input.nth_zero_cons hsig, Input.nth_zero_cons hsig']
        exact .inl ht
      | succ n =>
        rw [List.cons_append, Input.nth_succ_cons hsig, Input.nth_succ_cons hsig']
        exact ih n

end Parallel.Inputs

namespace Rule

variable {C : Parallel} {i i' : Input} {rule : StatementRule}

/-! ## Lines of entries -/

theorem ifAtSosEntry_eq {p q : Rule Unit} (i : Input) :
    (atSosEntry >>= fun b => if b = true then p else q) i =
      (if AtLabel colon i then p else q) i := by
  change (if ((i.peek 0).kind == .ident && (i.peek 1).kind == .colon) = true then p else q) i = _
  by_cases h : AtLabel colon i
  · rw [if_pos h, if_pos ((atLabel_colon_iff i).1 h)]
  · rw [if_neg h, if_neg (mt (atLabel_colon_iff i).2 h)]

/-- What an SOS section reads at an identifier: a set, entries, or neither. -/
theorem sosItem_eq (i : Input) : sosItem i =
    (if (sosAhead i).1 = true ∨ (sosAhead i).2 = true then sosSet (sosAhead i).1
      else if AtLabel colon i then sosEntries >>= fun _ => endOfStatement
      else recover .sosSetOrEntry) i := by
  change (if (sosAhead i).1 = true ∨ (sosAhead i).2 = true then sosSet (sosAhead i).1
    else atSosEntry >>= fun b => if b = true then sosEntries >>= fun _ => endOfStatement
      else recover .sosSetOrEntry) i = _
  by_cases ha : (sosAhead i).1 = true ∨ (sosAhead i).2 = true
  · rw [if_pos ha, if_pos ha]
  · rw [if_neg ha, if_neg ha, ifAtSosEntry_eq]

theorem sosItem_entries (hi : i.Proper) (hl : AtLabel colon i)
    (ha : ¬ ((sosAhead i).1 = true ∨ (sosAhead i).2 = true)) :
    sosItem i = (sosEntry >>= fun _ => sosEntries >>= fun _ => endOfStatement) i := by
  rw [sosItem_eq, if_neg ha, if_pos hl, entries_run hi hl]

theorem statementChoice_eq (rule : StatementRule) (i : Input) : statementChoice rule i =
    (if rule.first.contains (i.peek 0).kind = true then statementBody rule
      else recover rule.expected) i := rfl

/-- A round that leaves several nodes reads a line of entries. -/
theorem statement_entries {t : Token} {us : List Token} {s x : Skeleton} {more : List Skeleton}
    (hi : i.Proper) (hn : i.Next [] t us) (hend : ¬ At Grammar.statementEnd i)
    (hf : (statement rule i).output.events = Skeleton.eventsAll (s :: x :: more)) :
    rule = .sos ∧ AtLabel colon i ∧ ¬ ((sosAhead i).1 = true ∨ (sosAhead i).2 = true) := by
  have hK : Inline fun _ => True := fun _ _ => trivial
  -- rules that leave one node do not come up
  have hsingle : ∀ p : Rule Unit, statement rule i = p i → ¬ Opens p i [] t us [] := by
    rintro p hp ⟨⟨k, g, _, he⟩, _⟩
    rw [← hp, hf] at he
    have := congrArg List.length (Skeleton.eventsAll_injective he)
    simp [Skeleton.trivia] at this
  have hchoice := (statement_eq rule hi hend).trans (statementChoice_eq rule i)
  by_cases hfirst : rule.first.contains (i.peek 0).kind = true
  · rw [if_pos hfirst] at hchoice
    by_cases hrule : rule = .sos
    · subst hrule
      have hitem : statement .sos i = _ := hchoice.trans (sosItem_eq i)
      have hk := eq_ident_of_first hfirst
      have ha : ¬ ((sosAhead i).1 = true ∨ (sosAhead i).2 = true) := by
        intro ha
        rw [if_pos ha] at hitem
        refine hsingle _ hitem ?_
        exact (wraps_sosSet hK _).opens (stable_atSosSet _) hi (atSosSet_of_sosAhead hk ha) hn
      refine ⟨rfl, ?_, ha⟩
      by_contra hl
      rw [if_neg ha, if_neg hl] at hitem
      exact hsingle _ hitem (recover_opens hi hn rfl _ hend)
    · refine absurd ?_ (hsingle _ hchoice)
      exact (wraps_statementBody hK hrule trivial).opens (stable_at _) hi hfirst hn
  · rw [if_neg hfirst] at hchoice
    exact absurd (recover_opens hi hn rfl rule.expected hend) (hsingle _ hchoice)

/-! ## The first entry of a line -/

/-- Entries and the end of a line at the end of input. -/
theorem entries_done (h : (i.peek 0).kind = .eof) :
    (sosEntries >>= fun _ => endOfStatement) i = ⟨(), {}, i⟩ := by
  have hl : ¬ AtLabel colon i := by
    rintro ⟨hk, _⟩
    rw [h] at hk
    cases hk
  have hstep : sosEntriesStep i = ⟨false, {}, i⟩ := by
    change (if ((i.peek 0).kind == .ident && (i.peek 1).kind == .colon) = true then
      sosEntry >>= fun _ => pure true else pure false : Rule Bool) i = _
    rw [if_neg (mt (atLabel_colon_iff i).2 hl)]
    rfl
  have hentries : sosEntries i = ⟨(), {}, i⟩ := by
    rw [sosEntries_eq, repeatWhile_neg (by rw [hstep]; exact fun h => Bool.noConfusion h.1), hstep]
  have hend : endOfStatement i = ⟨(), {}, i⟩ := by
    change (if Grammar.statementEnd.contains (i.peek 0).kind = true then pure ()
      else recover .endOfLine : Rule Unit) i = _
    rw [h]
    rfl
  rw [bind_run, hentries, hend]
  rfl

/-- What follows the first entry of a line takes tokens only, and reports about those it takes. -/
theorem spec_entries {n : Nat} : Spec (fun _ => True) n (fun _ => True)
    (sosEntries >>= fun _ => endOfStatement) fun _ _ => True := by
  have hK : Inline fun _ => True := fun _ _ => trivial
  refine .bind ((spec_sosEntries hK).post fun _ _ _ => trivial) fun _ =>
    .ifAt (.pure fun _ _ => trivial) ?_
  exact (Spec.recover hK.skips _ fun _ h => .inl h.2).post fun _ _ _ => trivial

/-- An entry takes its name and the colon. -/
theorem sosEntry_label (hi : i.Proper) (h : AtLabel colon i) : ∃ v t us w u ws,
    i.Next v t us ∧ (i.after t us).Next w u ws ∧ t.kind = .ident ∧ u.kind = .colon ∧
      (sosEntry i).rest.tokens.length ≤ ws.length := by
  obtain ⟨v, t, us, hn, _⟩ := hi.exists_next (ne_eof_of_atLabel h)
  have hn₀ : (i.advance (t :: us)).Next [] t us := ⟨rfl, allTrivia_nil, hn.significant⟩
  have hproper : (i.after t us).Proper :=
    hi.of_suffix rfl ⟨v ++ [t], by simp [hn.tokens, Input.after]⟩
  have hpeek : (i.after t us).peek 0 = i.peek 1 := (hn.peek_succ 0).symm
  obtain ⟨w, u, ws, hm, _⟩ := hproper.exists_next (by
    rw [hpeek]
    exact ne_eof_of_inline (inline_colon _ h.2))
  have hcolon := (atLabel_colon_iff i).1 h
  simp only [Bool.and_eq_true, beq_iff_eq] at hcolon
  refine ⟨v, t, us, w, u, ws, hn, hm, hn.peek_zero ▸ hcolon.1, ?_, ?_⟩
  · rw [← hm.peek_zero, hpeek, hcolon.2]
  · have hfirst : (bump (i.advance (t :: us))).rest = i.after t us := by
      rw [bump_eq, bumpAs_next hn₀ (hi.ne_eof hn.mem)]
      rfl
    have hsecond : (bump (i.after t us)).rest = (i.after t us).after u ws := by
      rw [bump_eq, bumpAs_next hm (hproper.ne_eof hm.mem)]
    have hrun : (sosEntry i).rest = (constant ((i.after t us).after u ws)).rest := by
      rw [sosEntry, node_run hn.tokens hn.trivia hn.head?]
      simp only [bind_run, hfirst, hsecond]
    rw [hrun]
    exact (cuts_constant (C := ⟨id, fun _ => False, [], []⟩) (P := fun _ => True) rfl).shrinks _

/-- **An entry is read alike when the input ends behind it**, wherever that is. -/
theorem sosEntry_cut (hC : C.tail' = []) (hi : C.Inputs i i') (h : AtLabel colon i)
    (hl : C.tail.length ≤ (sosEntry i).rest.tokens.length) :
    AtLabel colon i' ∧ C.Outcomes (sosEntry i) (sosEntry i') := by
  refine ⟨?_, (cuts_sosEntry (P := fun _ => True) hC).alike i i' hi trivial hl⟩
  -- an entry takes its two first tokens, so they are not cut off
  obtain ⟨v, t, us, w, u, ws, hn, hm, ht, hu, hrest⟩ := sosEntry_label hi.proper h
  have hws : C.tail.length ≤ ws.length := Nat.le_trans hl hrest
  have hus : C.tail.length ≤ us.length := by
    have hlen := congrArg List.length (show us = w ++ u :: ws from hm.tokens)
    rw [List.length_append, List.length_cons] at hlen
    omega
  obtain ⟨v', t', us', hn', _, htt, hafter, _⟩ := hi.next hn hus
  obtain ⟨w', u', ws', hm', _, huu, _⟩ := hafter.next hm hws
  have hpeek : i'.peek 1 = u' := (hn'.peek_succ 0).trans hm'.peek_zero
  rw [atLabel_colon_iff, hn'.peek_zero, htt.kind, ht, hpeek, huu.kind, hu]
  rfl

/-- Where the first input has no set ahead, the second has none. -/
theorem sosAhead_cut (hC : C.tail' = []) (hi : C.Inputs i i')
    (h : ¬ ((sosAhead i).1 = true ∨ (sosAhead i).2 = true)) :
    ¬ ((sosAhead i').1 = true ∨ (sosAhead i').2 = true) := by
  have hkind : ∀ {n k}, k ≠ .eof → (i'.peek n).kind = k → (i.peek n).kind = k := by
    intro n k hk h
    rcases hi.peek_or_eof hC n with ht | heof
    · rw [← h, ht.kind]
    · exact absurd (h.symm.trans heof) hk
  have htype : ∀ {n}, isSosType (i'.peek n) = true → isSosType (i.peek n) = true := by
    intro n h
    rcases hi.peek_or_eof hC n with ht | heof
    · rw [← ht.sosType, h]
    · rw [((isSosType_iff _).1 h).1] at heof
      cases heof
  refine mt (Or.imp (fun h => ?_) fun h => ?_) h
  · simp only [sosAhead, Bool.and_eq_true, beq_iff_eq] at h ⊢
    exact ⟨⟨hkind Kind.noConfusion h.1.1, htype h.1.2⟩, hkind Kind.noConfusion h.2⟩
  · simp only [sosAhead, Bool.and_eq_true, beq_iff_eq] at h ⊢
    exact ⟨htype h.1, hkind Kind.noConfusion h.2⟩

/-! ## The first node of a round -/

/-- What the round of a statement leaves: for its first node, which has the tokens `M`, and for what
follows on its line. The node alone leaves the same. -/
structure Severs (C : Parallel) (rule : StatementRule) (i i' : Input) (M B : List Token)
    (s : Skeleton) (o rest : Output) : Prop where
  output : (statement rule i).output = o ++ rest
  events : o.events = s.events
  own : ∀ d ∈ o.diagnostics, ∃ t ∈ M, Trace.At d t
  others : ∀ d ∈ rest.diagnostics, ∃ t ∈ B, Trace.At d t
  inside : ¬ At Grammar.statementEnd i'
  alone : C.Outputs o (statement rule i').output
  ends : (statement rule i').rest.tokens = []

theorem tokens_eq_nil {j j' : Input} (hC : C.tail' = []) (hj : C.Inputs j j')
    (h : j.tokens = C.tail) : j'.tokens = [] := by
  obtain ⟨w, w', hw, hw', hall⟩ := hj.tokens
  obtain rfl : w = [] := List.self_eq_append_left.1 (h.symm.trans hw)
  cases hall
  rw [hw', hC]
  rfl

/-- A line of entries: the first one and the others. -/
theorem statement_sos_entries (hi : i.Proper) (hl : AtLabel colon i)
    (ha : ¬ ((sosAhead i).1 = true ∨ (sosAhead i).2 = true)) : ¬ At Grammar.statementEnd i ∧
      statement .sos i = (sosEntry >>= fun _ => sosEntries >>= fun _ => endOfStatement) i := by
  have hinside : ¬ At Grammar.statementEnd i := by
    rw [At, hl.1]
    decide
  refine ⟨hinside, (statement_eq .sos hi hinside).trans ?_⟩
  rw [statementChoice_eq, hl.1]
  exact sosItem_entries hi hl ha

section Entry

variable {M B us : List Token} {t : Token} {s x : Skeleton} {more : List Skeleton} (hi : i.Proper)
  (htokens : i.tokens = M ++ B) (hend : ¬ At Grammar.statementEnd i)
  (hM : M.length = (leavesOf s.events).length) (hn : i.Next [] t us)
  (hf : (statement rule i).output.events = Skeleton.eventsAll (s :: x :: more))

include hi htokens hend hM hn hf

/-- The first of several nodes is the first entry of a line. -/
theorem entry_first : (sosEntry i).output.events = s.events ∧ (sosEntry i).rest.tokens = B ∧
    Trace (fun _ => True) i.taken i M [s] (sosEntry i).output.diagnostics (sosEntry i).rest := by
  obtain ⟨rfl, hl, ha⟩ := statement_entries hi hn hend hf
  have hK : Inline fun _ => True := fun _ _ => trivial
  have hentry := spec_sosEntry (n := i.taken) hK i hi (Nat.le_refl _) hl
  obtain ⟨xs, f, ht, he⟩ := hentry.trace
  obtain ⟨ys, g, _, he'⟩ := (spec_entries (sosEntry i).rest (hentry.proper hi) (Nat.le_refl _)
    trivial).trace
  obtain rfl : f = [s] := by
    obtain ⟨⟨k, cs, _, hk⟩, _⟩ :=
      (wraps_sosEntry (n := i.taken) hK).opens (stable_atLabel _) hi hl hn
    obtain rfl := Skeleton.eventsAll_injective (he.symm.trans hk)
    rw [(statement_sos_entries hi hl ha).2, bind_run, Output.events_append, he, he',
      ← Skeleton.eventsAll_append] at hf
    have hfirst := congrArg List.head? (Skeleton.eventsAll_injective hf)
    simpa [Skeleton.trivia] using hfirst
  have hlen : M.length = xs.length := by
    rw [hM, ht.shown.length_eq, Skeleton.eventsAll_singleton]
  obtain ⟨rfl, hrest⟩ := List.append_inj (htokens.symm.trans ht.tokens_eq) hlen
  exact ⟨by rw [he, Skeleton.eventsAll_singleton], hrest.symm, ht⟩

/-- It starts with a name, and has a colon. -/
theorem entry_colon : t.kind = .ident ∧ ∃ u ∈ M, u.kind = .colon := by
  obtain ⟨rfl, hl, _⟩ := statement_entries hi hn hend hf
  obtain ⟨_, _, ht⟩ := entry_first hi htokens hend hM hn hf
  obtain ⟨v, t', us', w, u, ws, hn', hm, _, hu, hrest⟩ := sosEntry_label hi hl
  refine ⟨hn.peek_zero ▸ hl.1, u, ?_, hu⟩
  have hall : (v ++ t' :: w ++ [u]) ++ ws = M ++ (sosEntry i).rest.tokens := by
    rw [← ht.tokens_eq, hn'.tokens, show us' = w ++ u :: ws from hm.tokens]
    simp
  have hlen : (v ++ t' :: w ++ [u]).length + ws.length =
      M.length + (sosEntry i).rest.tokens.length := by
    rw [← List.length_append, hall, List.length_append]
  obtain ⟨m, hm⟩ := List.prefix_of_prefix_length_le (List.prefix_append _ ws)
    (hall ▸ List.prefix_append M _) (by omega)
  rw [← hm]
  simp

end Entry

section Severs

variable {M B us : List Token} {t : Token} {s : Skeleton} (hi : C.Inputs i i') (hB : C.tail = B)
  (hC : C.tail' = []) (htokens : i.tokens = M ++ B) (hend : ¬ At Grammar.statementEnd i)
  (hM : M.length = (leavesOf s.events).length)

include hi hB hC htokens hend hM

/-- A statement that is the only node of its round. -/
theorem severs_single (hf : (statement rule i).output.events = Skeleton.eventsAll [s]) :
    Severs C rule i i' M B s (statement rule i).output {} := by
  have hspec := spec_statement (K := fun _ => True) (fun _ _ => trivial) rule (fun _ => trivial) i
    hi.proper (Nat.le_refl _) hend
  obtain ⟨xs, f, ht, he⟩ := hspec.trace
  obtain rfl := Skeleton.eventsAll_injective (he.symm.trans hf)
  have hlen : M.length = xs.length := by
    rw [hM, ht.shown.length_eq, Skeleton.eventsAll_singleton]
  obtain ⟨rfl, hrest⟩ := List.append_inj (htokens.symm.trans ht.tokens_eq) hlen
  have hsevered : C.Severed := by
    refine ⟨hC, fun e he => ?_⟩
    have hat := hspec.post.2
    rw [At, Input.peek, ← hrest, ← hB] at hat
    rw [Input.kind_nth (he.trans (hspec.proper hi.proper).eof.symm)]
    exact hat
  obtain ⟨hinside, hsame⟩ := statement_cut hsevered rule hi hend (by rw [hB, hrest])
  refine ⟨(Output.append_empty _).symm, ?_, fun d hd => ?_, List.forall_mem_nil _, hinside,
    hsame.output, tokens_eq_nil hC hsame.rest (by rw [hB, hrest])⟩
  · rw [hf, Skeleton.eventsAll_singleton]
  · exact (ht.located d hd).resolve_right fun h => Nat.lt_irrefl _ h.1

/-- The first of several entries. -/
theorem severs_entry (hn : i.Next [] t us) {x : Skeleton} {more : List Skeleton}
    (hf : (statement rule i).output.events = Skeleton.eventsAll (s :: x :: more)) :
    Severs C rule i i' M B s (sosEntry i).output
      ((sosEntries >>= fun _ => endOfStatement) (sosEntry i).rest).output := by
  obtain ⟨he, hrest, ht⟩ := entry_first hi.proper htokens hend hM hn hf
  obtain ⟨rfl, hl, ha⟩ := statement_entries hi.proper hn hend hf
  obtain ⟨ys, g, ht', _⟩ := (spec_entries (sosEntry i).rest (ht.proper hi.proper) (Nat.le_refl _)
    trivial).trace
  obtain ⟨hl', hsame⟩ := sosEntry_cut hC hi hl (by rw [hB, hrest])
  obtain ⟨hinside', hrun'⟩ := statement_sos_entries hi.proper' hl' (sosAhead_cut hC hi ha)
  have hnil := tokens_eq_nil hC hsame.rest (by rw [hB, hrest])
  have hdone : ((sosEntry i').rest.peek 0).kind = .eof := by
    rw [Input.peek, hnil]
    exact hsame.rest.proper'.eof
  have halone : statement .sos i' = ⟨(), (sosEntry i').output, (sosEntry i').rest⟩ := by
    rw [hrun', bind_run, entries_done hdone, Output.append_empty]
  refine ⟨?_, he, fun d hd => ?_, fun d hd => ?_, hinside', ?_, ?_⟩
  · rw [(statement_sos_entries hi.proper hl ha).2]
    rfl
  · exact (ht.located d hd).resolve_right fun h => Nat.lt_irrefl _ h.1
  · obtain ⟨u, hu, hat⟩ := (ht'.located d hd).resolve_right fun h => Nat.lt_irrefl _ h.1
    exact ⟨u, by rw [← hrest, ht'.tokens_eq]; exact List.mem_append_left _ hu, hat⟩
  · rw [halone]
    exact hsame.output
  · rw [halone]
    exact hnil

/-- **The first node of a round is read alike when the input ends behind it.** -/
theorem severs (hn : i.Next [] t us) {more : List Skeleton}
    (hf : (statement rule i).output.events = Skeleton.eventsAll (s :: more)) :
    ∃ o rest, Severs C rule i i' M B s o rest := by
  cases more with
  | nil => exact ⟨_, _, severs_single hi hB hC htokens hend hM hf⟩
  | cons x more => exact ⟨_, _, severs_entry hi hB hC htokens hend hM hn hf⟩

end Severs

end Rule

end LpFormat
