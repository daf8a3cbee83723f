import LpFormat.Proofs.Parsing.Document

/-!
# Two documents up to a statement

Two inputs that part at the first token of a statement are read alike up to there, although no
statement ends at that place: the rules that come before stop earlier, at a line end or at a keyword.

* `Parallel.parting`, **`Rule.Conforms.follow`**: a rule that ends where a statement ends reads
  inputs alike that part anywhere behind;
* `Parallel.PartsAt`: the inputs part at the first token of a statement;
* `Rule.Lead`: two runs that lead there, with `Rule.Lead.trans`, `Rule.Conforms.lead`,
  `Rule.bump_lead`;
* **`Rule.Loops.lead`**, `Rule.bodyStep_lead`: rounds of a loop.
-/

namespace LpFormat

/-- Tokens stand one after another. -/
def Ordered (ts : List Token) : Prop := ts.Pairwise fun t u => t.span.stop ≤ u.span.start

theorem ordered_of_adjoin {ts : List Token} {a b : Nat} (h : Adjoin a b (ts.map Token.span)) :
    Ordered ts := by
  induction ts generalizing a with
  | nil => exact .nil
  | cons t ts ih =>
    obtain ⟨_, _, h⟩ := h
    refine List.pairwise_cons.2 ⟨fun u hu => ?_, ih h⟩
    exact (h.mem (List.mem_map_of_mem hu)).1

theorem Ordered.of_suffix {ts us : List Token} (h : Ordered ts) (hs : us <:+ ts) : Ordered us :=
  h.sublist hs.sublist

theorem Ordered.le_of_mem {ts us : List Token} (h : Ordered (ts ++ us)) {t u : Token} (ht : t ∈ ts)
    (hu : u ∈ us) : t.span.stop ≤ u.span.start := (List.pairwise_append.1 h).2.2 t ht u hu

theorem Input.kind_nth {e e' : Token} (he : e'.kind = e.kind) (n : Nat) (ts : List Token) :
    (nth e' n ts).kind = (nth e n ts).kind := by
  induction ts generalizing n with
  | nil => exact he
  | cons t ts ih =>
    by_cases ht : t.kind.isTrivia = true
    · rw [nth_cons_trivia ht, nth_cons_trivia ht]
      exact ih n
    · have hsig : t.kind.isTrivia = false := by simpa using ht
      cases n with
      | zero => rw [nth_zero_cons hsig, nth_zero_cons hsig]
      | succ n =>
        rw [nth_succ_cons hsig, nth_succ_cons hsig]
        exact ih n

namespace Parallel

/-- The same comparison with another place where the inputs part. -/
def parting (C : Parallel) (tail tail' : List Token) : Parallel :=
  { C with tail := tail, tail' := tail' }

variable {C : Parallel} {a a' : List Token}

theorem tokens_parting {t t' : Token} : (C.parting a a').Tokens t t' ↔ C.Tokens t t' :=
  ⟨fun h => ⟨h.kind, h.span, h.free, h.sosType, h.signed, h.unclosed, h.text⟩,
    fun h => ⟨h.kind, h.span, h.free, h.sosType, h.signed, h.unclosed, h.text⟩⟩

theorem forall₂_parting {w w' : List Token} :
    List.Forall₂ (C.parting a a').Tokens w w' ↔ List.Forall₂ C.Tokens w w' :=
  ⟨fun h => h.imp fun _ _ => tokens_parting.1, fun h => h.imp fun _ _ => tokens_parting.2⟩

theorem Outputs.of_parting {o o' : Output} (h : (C.parting a a').Outputs o o') : C.Outputs o o' :=
  ⟨h.events, h.diagnostics.imp fun _ _ hd => ⟨hd.span, hd.problem⟩⟩

/-- Inputs that correspond beyond the place where they are made to part. -/
theorem Inputs.parting {i i' : Input} (hi : C.Inputs i i') {x : List Token}
    (hx : i.tokens = x ++ (a ++ C.tail)) : ∃ x' a', i'.tokens = x' ++ (a' ++ C.tail') ∧
      List.Forall₂ C.Tokens x x' ∧ List.Forall₂ C.Tokens a a' ∧
      (C.parting (a ++ C.tail) (a' ++ C.tail')).Inputs i i' := by
  obtain ⟨w, w', hw, hw', hall⟩ := hi.tokens
  obtain rfl : w = x ++ a := by
    rw [hw, ← List.append_assoc] at hx
    exact List.append_cancel_right hx
  obtain ⟨x', a', rfl, hxx, haa⟩ := forall₂_append_left hall
  rw [List.append_assoc] at hw'
  exact ⟨x', a', hw', hxx, haa, ⟨x, x', hx, hw', forall₂_parting.2 hxx⟩, hi.takenEnd, hi.proper,
    hi.proper'⟩

theorem Inputs.of_parting {i i' : Input}
    (hi : (C.parting (a ++ C.tail) (a' ++ C.tail')).Inputs i i')
    (haa : List.Forall₂ C.Tokens a a') (hl : i.tokens = a ++ C.tail) : C.Inputs i i' := by
  obtain ⟨w, w', hw, hw', hall⟩ := hi.tokens
  obtain rfl : w = [] := by
    change i.tokens = w ++ (a ++ C.tail) at hw
    rw [hl] at hw
    exact List.self_eq_append_left.1 hw
  cases hall
  exact ⟨⟨a, a', hl, hw', haa⟩, hi.takenEnd, hi.proper, hi.proper'⟩

/-- Where inputs are made to part at the end of a statement, they are fenced. -/
theorem fenced_parting (hC : C.Aligned) (haa : List.Forall₂ C.Tokens a a') {e : Token}
    (he : e.kind = .eof)
    (hend : Grammar.statementEnd.contains (Input.nth e 0 (a ++ C.tail)).kind = true) :
    (C.parting (a ++ C.tail) (a' ++ C.tail')).Fenced := by
  refine ⟨⟨?_, (newlineRun_eq hC haa he he).1, ?_⟩, ?_⟩
  · exact fun e e' he he' => kind_nth_zero hC haa he he'
  · exact fun e e' he he' => (newlineRun_eq hC haa he he').2
  · intro e' he'
    change Grammar.statementEnd.contains (Input.nth e' 0 (a ++ C.tail)).kind = true
    rw [Input.kind_nth (he'.trans he.symm)]
    exact hend

end Parallel

namespace Rule

variable {K : Kind → Prop} {n : Nat} {C : Parallel} {i i' j j' k k' : Input} {o o' : Output}

/-- **A rule that ends where a statement ends reads inputs alike that part behind that place.** -/
theorem Conforms.follow {α : Type} {p : Rule α} {Q : α → Input → Prop} (h : Conforms K n p Q i)
    (hC : C.Aligned) (hi : C.Inputs i i') (hl : C.tail.length ≤ (p i).rest.tokens.length)
    (hend : At Grammar.statementEnd (p i).rest) : C.Outcomes (p i) (p i') := by
  obtain ⟨xs, f, ht, _⟩ := h.trace
  obtain ⟨a, ha⟩ : ∃ a, (p i).rest.tokens = a ++ C.tail := by
    obtain ⟨w, w', hw, _⟩ := hi.tokens
    obtain ⟨a, ha⟩ := List.suffix_of_suffix_length_le ⟨w, hw.symm⟩ ⟨xs, ht.tokens_eq.symm⟩ hl
    exact ⟨a, ha.symm⟩
  have hx := ht.tokens_eq
  rw [ha] at hx
  obtain ⟨x', a', hx', hxx, haa, hparting⟩ := hi.parting hx
  have hfenced : (C.parting (a ++ C.tail) (a' ++ C.tail')).Fenced := by
    refine Parallel.fenced_parting hC haa (e := (p i).rest.eof) ?_ ?_
    · rw [ht.eof_eq]
      exact hi.proper.eof
    · rw [At, Input.peek, ha] at hend
      exact hend
  have hsame := h.alike _ i' hfenced hparting (Nat.le_of_eq (congrArg List.length ha.symm))
  exact ⟨hsame.value, hsame.output.of_parting, hsame.rest.of_parting haa ha⟩

end Rule

/-- Inputs that part at the first token of a statement. -/
structure Parallel.PartsAt (C : Parallel) (t : Token) (us : List Token) : Prop where
  aligned : C.Aligned
  tail : C.tail = t :: us
  significant : t.kind.isTrivia = false
  inside : Grammar.statementEnd.contains t.kind = false

namespace Rule

variable {C : Parallel} {i i' j j' k k' : Input} {o o' p p' : Output} {t : Token}
  {us : List Token}

/-- Two runs that lead to the place where the inputs part. All reports are about what stands before
that place. -/
structure Lead (C : Parallel) (pos : Nat) (i : Input) (o : Output) (j : Input) (o' : Output)
    (j' : Input) : Prop where
  outputs : C.Outputs o o'
  inputs : C.Inputs j j'
  trace : ∃ xs f, Trace (fun _ => True) 0 i xs f o.diagnostics j
  early : ∀ d ∈ o.diagnostics, d.span.start < pos

theorem Lead.refl (hi : C.Inputs i i') (pos : Nat) : Lead C pos i {} i {} i' :=
  ⟨.empty, hi, ⟨[], [], .nil i⟩, List.forall_mem_nil _⟩

theorem Lead.trans {pos : Nat} (h : Lead C pos i o j o' j') (h' : Lead C pos j p k p' k') :
    Lead C pos i (o ++ p) k (o' ++ p') k' := by
  obtain ⟨xs, f, ht⟩ := h.trace
  obtain ⟨ys, g, ht'⟩ := h'.trace
  exact ⟨h.outputs.append h'.outputs, h'.inputs, ⟨_, _, ht.append ht'⟩,
    List.forall_mem_append.2 ⟨h.early, h'.early⟩⟩

theorem Lead.suffix {pos : Nat} (h : Lead C pos i o j o' j') : j.tokens <:+ i.tokens := by
  obtain ⟨xs, f, ht⟩ := h.trace
  exact ⟨xs, ht.tokens_eq.symm⟩

section Steps

variable (hC : C.PartsAt t us) (hi : C.Inputs i i') (hord : Ordered i.tokens)

include hC hi hord

/-- A rule that ends where a statement ends. -/
theorem Conforms.lead {α : Type} {p : Rule α} {Q : α → Input → Prop}
    (h : Conforms (fun _ => True) i.taken p Q i)
    (hl : C.tail.length ≤ (p i).rest.tokens.length) (hend : At Grammar.statementEnd (p i).rest) :
    Lead C t.span.start i (p i).output (p i).rest (p i').output (p i').rest := by
  have hsame := h.follow hC.aligned hi hl hend
  obtain ⟨xs, f, ht, _⟩ := h.trace
  refine ⟨hsame.output, hsame.rest, ⟨xs, f, ht.mono (fun _ h => h) (Nat.zero_le _)⟩, ?_⟩
  -- between the tokens taken and the place where the inputs part stands the end of a statement
  obtain ⟨a, a', ha, _, _⟩ := hsame.rest.tokens
  obtain ⟨u, hu⟩ : ∃ u ∈ a, u.kind.isTrivia = false := by
    by_contra hnone
    have htrivia : AllTrivia a := by
      intro u hu
      by_contra hne
      exact hnone ⟨u, hu, by simpa using hne⟩
    rw [At, Input.peek, ha, Input.nth_append htrivia, hC.tail,
      Input.nth_zero_cons hC.significant, hC.inside] at hend
    cases hend
  have htokens := ht.tokens_eq
  rw [ha, hC.tail] at htokens
  have hsolid := hi.proper.solid u (by rw [htokens]; simp [hu.1])
  rw [htokens] at hord
  have hut := (hord.of_suffix ⟨xs, rfl⟩).le_of_mem hu.1 (List.mem_cons_self (a := t) (l := us))
  intro d hd
  rcases ht.located d hd with ⟨w, hw, hdw⟩ | ⟨hlt, _⟩
  · have hwu := hord.le_of_mem hw (List.mem_append_left _ hu.1)
    have hws := hi.proper.solid w (by rw [htokens]; simp [hw])
    rcases hdw with hd | ⟨_, hd⟩
    · rw [hd]
      omega
    · rw [hd]
      change w.span.stop < _
      omega
  · exact absurd hlt (Nat.lt_irrefl _)

/-- Taking a token. -/
theorem bump_lead {v ws : List Token} {u : Token} (hn : i.Next v u ws)
    (hl : C.tail.length ≤ ws.length) :
    Lead C t.span.start i (bump i).output (bump i).rest (bump i').output (bump i').rest ∧
      (i'.peek 0).kind = u.kind ∧ (bump i).rest.tokens = ws := by
  obtain ⟨v', u', ws', hn', hv, hu, hafter, _⟩ := hi.next hn hl
  have hne := hi.proper.ne_eof hn.mem
  have hrun := bumpAs_next hn hne u.kind
  have hrun' := bumpAs_next hn' (hu.kind ▸ hne) u.kind
  rw [bump_eq, bump_eq, hn.peek_zero, hn'.peek_zero, hu.kind, hrun, hrun']
  refine ⟨⟨(Parallel.Outputs.trivia hv).append (.token _ hu), hafter,
    ⟨v ++ [u], Skeleton.trivia v ++ [.leaf u.kind u.span], ?_⟩, ?_⟩, rfl, rfl⟩
  · simpa [Output.token, Output.trivia] using Trace.token hn trivial .same
  · intro d hd
    have hd' : d ∈ v.filterMap commentDiagnostic? := by
      simpa [Output.token, Output.trivia] using hd
    obtain ⟨w, hw, he⟩ := List.mem_filterMap.1 hd'
    have hspan : d.span = w.span := by
      rw [commentDiagnostic?] at he
      split_ifs at he
      cases he
      rfl
    obtain ⟨x, hx⟩ : ∃ x, ws = x ++ C.tail := by
      obtain ⟨y, y', hy, _⟩ := hafter.tokens
      exact ⟨y, hy⟩
    have htokens := hn.tokens
    rw [hx, hC.tail] at htokens
    have hsolid := hi.proper.solid w (by rw [htokens]; simp [hw])
    rw [htokens] at hord
    have := hord.le_of_mem hw (u := t) (by simp)
    rw [hspan]
    omega

end Steps

/-! ## Rounds -/

theorem Loops.length_le {step : Rule Bool} (h : Loops step i o j) :
    j.tokens.length ≤ i.tokens.length := by
  induction h with
  | nil i => exact Nat.le_refl _
  | cons _ hlt _ ih => exact Nat.le_trans ih (Nat.le_of_lt hlt)

/-- **Rounds of a loop lead on if every round does.** -/
theorem Loops.lead {step : Rule Bool} {pos : Nat} (h : Loops step i o j) (hi : C.Inputs i i')
    (hord : Ordered i.tokens) (hl : C.tail.length ≤ j.tokens.length)
    (hstep : ∀ i i' : Input, C.Inputs i i' → Ordered i.tokens → (step i).value = true →
      C.tail.length ≤ (step i).rest.tokens.length → (step i').value = true ∧
        Lead C pos i (step i).output (step i).rest (step i').output (step i').rest) :
    ∃ o' j', Loops step i' o' j' ∧ Lead C pos i o j o' j' := by
  induction h generalizing i' with
  | nil i => exact ⟨{}, i', .nil i', .refl hi pos⟩
  | @cons i j o hv hlt h ih =>
    obtain ⟨hv', hlead⟩ := hstep i i' hi hord hv (Nat.le_trans hl h.length_le)
    obtain ⟨o', j', hloops, hmore⟩ := ih hlead.inputs (hord.of_suffix hlead.suffix) hl
    exact ⟨_, j', .cons hv' (hi.length_lt hlead.inputs hlt) hloops, hlead.trans hmore⟩

section Body

variable (rule : StatementRule)

theorem bodyStep_border (h : AtBorder i) : bodyStep rule i = ⟨false, {}, i⟩ := by
  have h' : (i.peek 0).kind = .eof ∨ (i.peek 0).kind.isSectionKeyword = true := h
  change (if (i.peek 0).kind = .eof ∨ (i.peek 0).kind.isSectionKeyword = true then pure false else _ :
    Rule Bool) i = _
  rw [if_pos h']
  rfl

theorem bodyStep_newline (h : (i.peek 0).kind = .newline) :
    bodyStep rule i = ⟨true, (bump i).output, (bump i).rest⟩ := by
  change (if (i.peek 0).kind = .eof ∨ (i.peek 0).kind.isSectionKeyword = true then pure false
    else if (i.peek 0).kind = .newline then bump >>= fun _ => pure true
    else statement rule >>= fun _ => pure true : Rule Bool) i = _
  rw [if_neg (by rw [h]; decide), if_pos h, bind_pure_run]

theorem bodyStep_statement (h : ¬ At Grammar.statementEnd i) :
    bodyStep rule i = ⟨true, (statement rule i).output, (statement rule i).rest⟩ := by
  rw [At, Grammar.contains_statementEnd, not_or] at h
  change (if (i.peek 0).kind = .eof ∨ (i.peek 0).kind.isSectionKeyword = true then pure false
    else if (i.peek 0).kind = .newline then bump >>= fun _ => pure true
    else statement rule >>= fun _ => pure true : Rule Bool) i = _
  rw [if_neg h.2, if_neg h.1, bind_pure_run]

theorem border_or_inside (i : Input) :
    AtBorder i ∨ (i.peek 0).kind = .newline ∨ ¬ At Grammar.statementEnd i := by
  by_cases h : At Grammar.statementEnd i
  · rcases Grammar.contains_statementEnd.1 h with h | h
    · exact .inr (.inl h)
    · exact .inl h
  · exact .inr (.inr h)

/-- A round of a body: a line end is simply taken, and a statement ends where a statement can end. -/
theorem bodyStep_lead (hC : C.PartsAt t us) (hi : C.Inputs i i') (hord : Ordered i.tokens)
    (hv : (bodyStep rule i).value = true)
    (hl : C.tail.length ≤ (bodyStep rule i).rest.tokens.length) :
    (bodyStep rule i').value = true ∧ Lead C t.span.start i (bodyStep rule i).output
      (bodyStep rule i).rest (bodyStep rule i').output (bodyStep rule i').rest := by
  rcases border_or_inside i with h | h | h
  · rw [bodyStep_border rule h] at hv
    cases hv
  · obtain ⟨v, u, ws, hn, hu⟩ := hi.proper.exists_next (by rw [h]; exact Kind.noConfusion)
    rw [bodyStep_newline rule h] at hl ⊢
    have hws : (bump i).rest.tokens = ws := by
      rw [bump_eq, bumpAs_next hn (hi.proper.ne_eof hn.mem)]
      rfl
    simp only [hws] at hl
    obtain ⟨hlead, hkind, _⟩ := bump_lead hC hi hord hn hl
    rw [bodyStep_newline rule (hkind.trans (hu.trans h))]
    exact ⟨rfl, hlead⟩
  · have hspec := spec_statement (K := fun _ => True) (fun _ _ => trivial) rule (fun _ => trivial) i
      hi.proper (Nat.le_refl i.taken) h
    rw [bodyStep_statement rule h] at hl ⊢
    have hlead := hspec.lead hC hi hord hl hspec.post.2
    have h' : ¬ At Grammar.statementEnd i' := by
      obtain ⟨v, u, ws, hn, hu⟩ := hi.proper.exists_next (ne_eof_of_not_at h)
      obtain ⟨xs, f, ht, _⟩ := hspec.trace
      have hlen := ht.rest_length_le hn (ht.taken_lt_iff.1 hspec.post.1)
      obtain ⟨v', u', ws', hn', _, huu, _⟩ := hi.next hn (Nat.le_trans hl hlen)
      rwa [At, hn'.peek_zero, huu.kind, hu]
    rw [bodyStep_statement rule h']
    exact ⟨rfl, hlead⟩

end Body

/-- A round of the sections of a document ends at a keyword or at the end of input. -/
theorem sectionsStep_lead (hC : C.PartsAt t us) (hi : C.Inputs i i') (hord : Ordered i.tokens)
    (hv : (sectionsStep i).value = true)
    (hl : C.tail.length ≤ (sectionsStep i).rest.tokens.length) :
    (sectionsStep i').value = true ∧ Lead C t.span.start i (sectionsStep i).output
      (sectionsStep i).rest (sectionsStep i').output (sectionsStep i').rest := by
  have hspec := spec_sectionsStep (K := fun _ => True) (P := fun _ => True) (fun _ _ => trivial)
    (fun _ _ => trivial) trivial trivial i hi.proper (Nat.le_refl i.taken) trivial
  have hend := (hspec.post.2.1 hv).at_statementEnd
  exact ⟨(hspec.follow hC.aligned hi hl hend).value.trans hv, hspec.lead hC hi hord hl hend⟩

end Rule

end LpFormat
