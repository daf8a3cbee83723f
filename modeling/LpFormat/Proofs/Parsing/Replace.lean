import LpFormat.Proofs.Parsing.Layout

/-!
# One statement of a document in place of another

Two documents that differ in one statement only: what comes before it is read alike, what comes after
it is read alike but moved, and so the two outputs differ by the output of the statement.

* `Rule.ending`, `Rule.remains`: what is left of a document behind a body;
* `Rule.Reaches`: a place where a document reads a statement, with the output before it and what is
  still to come, `Rule.Reaches.document_eq`;
* `Rule.Later`, `Rule.Continues`: what comes behind the statement is read alike;
* **`Rule.Reaches.lead`**: the other document reaches a statement of the same rule, after the same
  output.
-/

namespace LpFormat

namespace Output

/-- The output for the start of a node. -/
def opening (kind : Kind) : Output := { events := [.start kind] }

/-- The output for the end of a node. -/
def closed : Output := { events := [.finish] }

theorem enclosed_eq (kind : Kind) (o : Output) : enclosed kind o = opening kind ++ o ++ closed := by
  ext1 <;> simp [enclosed, opening, closed]

end Output

namespace Rule

variable {C D : Parallel} {i i' j j' : Input} {o o' : Output} {t : Token} {us : List Token}

/-! ## A document around a statement -/

/-- The sections that come next and the end mark. -/
def ending : Rule Unit := sections >>= fun _ => endMark

theorem contents_eq : contents = body .implicit >>= fun _ => ending := rfl

theorem spec_ending {n : Nat} :
    Spec (fun _ => True) n AtBorder ending fun _ j => (j.peek 0).kind = .eof := by
  have hK : Inline fun _ => True := fun _ _ => trivial
  refine .bind (spec_sections hK ?_ trivial trivial) fun _ => spec_endMark hK.skips ?_ trivial trivial
  · exact fun _ _ => trivial
  · exact fun _ _ => trivial

/-- What is left of a document: its remaining contents and trivia at the end. -/
def remains (r : Outcome Unit) : Output := r.output ++ .trivia r.rest.tokens

/-- What is left of a document behind a statement of a section. -/
def remainsOf (s : SectionRule) (keyword : Token) (j : Input) : Output :=
  (body s.rule j).output ++ (.closed ++ (closing s keyword (body s.rule j).rest ++
    remains (ending (body s.rule j).rest)))

/-- A document comes to a place where it reads a statement by a rule: before all sections, or in one
of them. What it has left so far and what it leaves behind the statement is given too. -/
inductive Reaches (i : Input) : StatementRule → Input → Output → (Input → Output) → Prop where
  | top {o : Output} {j : Input} (h : Loops (bodyStep .implicit) i o j) :
      Reaches i .implicit j o fun k => remains (contents k)
  | inside {s : SectionRule} {k j : Input} {o p : Output} {v us : List Token} {t : Token}
      (hsections : Loops sectionsStep (body .implicit i).rest o k) (hs : AtSection s k)
      (hn : k.Next v t us) (h : Loops (bodyStep s.rule) (k.after t us) p j) :
      Reaches i s.rule j ((body .implicit i).output ++ (o ++ (.trivia v ++
        (.opening .sectionNode ++ (.token t.kind t.span ++ p))))) (remainsOf s t)

/-- **A document is what it read before a statement, the statement, and the rest.** -/
theorem Reaches.document_eq {rule : StatementRule} {pre : Output} {post : Input → Output}
    (h : Reaches i rule j pre post) (hi : i.Proper) (hj : j.Proper)
    (hend : ¬ At Grammar.statementEnd j) : (document i).output = .enclosed .document
      (pre ++ ((statement rule j).output ++ post (statement rule j).rest)) := by
  rw [document_run hi]
  cases h with
  | top h =>
    rw [contents_eq, bind_run, h.body_eq hj hend]
    simp only [remains, bind_run, Output.append_assoc]
  | @inside s k _ o p v us t hsections hs hn h =>
    have hbody := h.body_eq hj hend
    have hk : k.Proper := by
      have hspec := spec_body (K := fun _ => True) (P := fun _ => True) (fun _ _ => trivial) trivial
        .implicit i hi (Nat.le_refl _) trivial
      obtain ⟨xs, f, ht, _⟩ := hsections.trace trace_sectionsStep (hspec.proper hi) (Nat.zero_le _)
      exact ht.proper (hspec.proper hi)
    have hstep := sectionsStep_some hs
    have hblock := sectionBlock_run s hk hn
    have hspec := spec_sectionsStep (K := fun _ => True) (P := fun _ => True) (fun _ _ => trivial)
      (fun _ _ => trivial) trivial trivial k hk (Nat.le_refl _) trivial
    have hlt := hspec.length_lt (hspec.post.1 (by rw [hstep]))
    have hrun := (hsections.snoc (by rw [hstep]) hlt).repeatWhile_eq
    rw [← sections_eq, hstep, hblock, hbody, hn.peek_zero] at hrun
    simp only [contents_eq, ending, bind_run, hrun, remainsOf, remains, Output.enclosed_eq .sectionNode,
      Output.append_assoc]

/-! ## What comes behind the statement -/

/-- Diagnostics that correspond: they are about a token behind the statement, which moved, or about
something before it, which did not. -/
inductive Later (C D : Parallel) (pos : Nat) (k : Input) (d d' : Diagnostic) : Prop where
  | behind (h : D.Diagnostics d d') (hat : ∃ t ∈ k.tokens, Trace.At d t) : Later C D pos k d d'
  | ahead (h : C.Diagnostics d d') (hlt : d.span.start < pos) : Later C D pos k d d'

/-- What is left behind the statement moved, and so did the diagnostics that are about it. -/
structure Continues (C D : Parallel) (pos : Nat) (k : Input) (o o' : Output) : Prop where
  events : o'.events = o.events.map (Event.move D.move)
  diagnostics : List.Forall₂ (Later C D pos k) o.diagnostics o'.diagnostics

section Behind

variable {pos : Nat} {k k' m : Input} {p p' : Output}

theorem Continues.append (h : Continues C D pos k o o') (h' : Continues C D pos k p p') :
    Continues C D pos k (o ++ p) (o' ++ p') := by
  refine ⟨?_, List.rel_append h.diagnostics h'.diagnostics⟩
  rw [Output.events_append, Output.events_append, h.events, h'.events, List.map_append]

theorem Continues.of_suffix (h : Continues C D pos m o o') (hs : m.tokens <:+ k.tokens) :
    Continues C D pos k o o' := by
  refine ⟨h.events, h.diagnostics.imp fun d d' hd => ?_⟩
  cases hd with
  | behind hd hat =>
    obtain ⟨t, ht, hdt⟩ := hat
    exact .behind hd ⟨t, hs.mem ht, hdt⟩
  | ahead hd hlt => exact .ahead hd hlt

theorem Continues.of_outputs (h : D.Outputs o o')
    (hat : ∀ d ∈ o.diagnostics, ∃ t ∈ k.tokens, Trace.At d t) : Continues C D pos k o o' := by
  refine ⟨h.events, ?_⟩
  exact ((List.forall₂_and_left _ _).2 ⟨hat, h.diagnostics⟩).imp fun d d' hd => .behind hd.2 hd.1

variable (h : D.tail = []) (h' : D.tail' = []) (hk : D.Inputs k k')

include h h' hk

/-- A rule behind the statement. -/
theorem Conforms.continues {q : Rule Unit} {Q : Unit → Input → Prop}
    (hq : Conforms (fun _ => True) k.taken q Q k) :
    Continues C D pos k (q k).output (q k').output ∧ D.Inputs (q k).rest (q k').rest ∧
      (q k).rest.tokens <:+ k.tokens := by
  obtain ⟨xs, f, ht, _⟩ := hq.trace
  have hsame := hq.alike D k' (Parallel.fenced_nil h h') hk (by simp [h])
  refine ⟨.of_outputs hsame.output fun d hd => ?_, hsame.rest, ⟨xs, ht.tokens_eq.symm⟩⟩
  rcases ht.located d hd with ⟨t, htx, hdt⟩ | ⟨hlt, _⟩
  · exact ⟨t, ht.tokens_eq ▸ List.mem_append_left _ htx, hdt⟩
  · exact absurd hlt (Nat.lt_irrefl _)

theorem continues_trivia :
    Continues C D pos k (.trivia k.tokens) (.trivia k'.tokens) := by
  obtain ⟨w, w', hw, hw', hall⟩ := hk.tokens
  rw [h, List.append_nil] at hw
  rw [h', List.append_nil] at hw'
  refine .of_outputs (hw ▸ hw' ▸ .trivia hall) fun d hd => Trace.at_trivia hd

/-- What is left of a document. -/
theorem continues_remains {q : Rule Unit} {Q : Unit → Input → Prop}
    (hq : Conforms (fun _ => True) k.taken q Q k) :
    Continues C D pos k (remains (q k)) (remains (q k')) := by
  have hcontinues : Continues C D pos k (q k).output (q k').output ∧ _ := hq.continues h h' hk
  obtain ⟨hout, hrest, hsuffix⟩ := hcontinues
  exact hout.append ((continues_trivia h h' hrest).of_suffix hsuffix)

/-- What is left of a document behind a statement of a section. The report about a section that is
still open is about its keyword, which stands before the statement. -/
theorem continues_remainsOf (s : SectionRule) {keyword keyword' : Token}
    (hkeyword : C.Tokens keyword keyword') (hlt : keyword.span.start < pos) :
    Continues C D pos k (remainsOf s keyword k) (remainsOf s keyword' k') := by
  have hspec := spec_body (K := fun _ => True) (P := fun _ => True) (fun _ _ => trivial) trivial s.rule
    k hk.proper (Nat.le_refl _) trivial
  have hcontinues : Continues C D pos k (body s.rule k).output (body s.rule k').output ∧ _ :=
    hspec.continues h h' hk
  obtain ⟨hbody, hrest, hsuffix⟩ := hcontinues
  have hending := spec_ending _ hrest.proper (Nat.le_refl _) hspec.post
  refine hbody.append (.append ⟨rfl, .nil⟩ (.append ?_ ?_))
  · rw [closing, closing, (hrest.peek_zero (Parallel.fenced_nil h h')).kind]
    split_ifs
    · exact ⟨rfl, .cons (.ahead ⟨hkeyword.span, .inl rfl⟩ hlt) .nil⟩
    · exact ⟨rfl, .nil⟩
  · exact (continues_remains h h' hrest hending).of_suffix hsuffix

end Behind

/-! ## The same place in another document -/

/-- The keyword of a section that stands before the place where the inputs part. -/
theorem keyword_lead (hC : C.PartsAt t us) (hi : C.Inputs i i') (hord : Ordered i.tokens)
    {v ws : List Token} {u : Token} (hn : i.Next v u ws) (hl : C.tail.length ≤ ws.length) :
    ∃ v' u' ws', i'.Next v' u' ws' ∧ C.Tokens u u' ∧ u.span.start < t.span.start ∧
      Lead C t.span.start i (.trivia v ++ (.opening .sectionNode ++ .token u.kind u.span))
        (i.after u ws) (.trivia v' ++ (.opening .sectionNode ++ .token u'.kind u'.span))
        (i'.after u' ws') := by
  obtain ⟨v', u', ws', hn', hv, hu, hafter, _⟩ := hi.next hn hl
  have hne := hi.proper.ne_eof hn.mem
  obtain ⟨hlead, _, _⟩ := bump_lead hC hi hord hn hl
  rw [bump_eq, hn.peek_zero, bumpAs_next hn hne] at hlead
  obtain ⟨x, hx⟩ : ∃ x, ws = x ++ C.tail := by
    obtain ⟨y, y', hy, _⟩ := hafter.tokens
    exact ⟨y, hy⟩
  refine ⟨v', u', ws', hn', hu, ?_, ⟨?_, hafter, hlead.trace, hlead.early⟩⟩
  · have hsolid := hi.proper.solid u hn.mem
    rw [hn.tokens, hx, hC.tail] at hord
    have := (List.pairwise_cons.1 (hord.of_suffix ⟨v, rfl⟩)).1 t (by simp)
    omega
  · rw [hu.kind]
    exact (Parallel.Outputs.trivia hv).append (.append ⟨rfl, .nil⟩ (.token _ hu))

/-- **A document that differs from some statement on reaches it after the same output**, and goes on
behind it in the same way. -/
theorem Reaches.lead {rule : StatementRule} {pre : Output} {post : Input → Output}
    (h : Reaches i rule j pre post) (hC : C.PartsAt t us) (hi : C.Inputs i i')
    (hord : Ordered i.tokens) (hl : C.tail.length ≤ j.tokens.length) :
    ∃ j' pre' post', Reaches i' rule j' pre' post' ∧ Lead C t.span.start i pre j pre' j' ∧
      ∀ (D : Parallel) (k k' : Input), D.tail = [] → D.tail' = [] → D.Inputs k k' →
        Continues C D t.span.start k (post k) (post' k') := by
  cases h with
  | top h =>
    obtain ⟨o', j', hloops, hlead⟩ := h.lead hi hord hl fun i i' hi hord =>
      bodyStep_lead .implicit hC hi hord
    refine ⟨j', o', _, .top hloops, hlead, fun D k k' hD hD' hk => ?_⟩
    exact continues_remains hD hD' hk
      (spec_contents (P := fun _ => True) k hk.proper (Nat.le_refl _) trivial)
  | @inside s k _ o p v ws u hsections hs hn h =>
    have hl₁ : C.tail.length ≤ ws.length := Nat.le_trans hl h.length_le
    have hl₂ : C.tail.length ≤ k.tokens.length := by
      rw [hn.tokens, List.length_append, List.length_cons]
      omega
    have hspec := spec_body (K := fun _ => True) (P := fun _ => True) (fun _ _ => trivial) trivial
      .implicit i hi.proper (Nat.le_refl _) trivial
    have hlead₁ := hspec.lead hC hi hord (Nat.le_trans hl₂ hsections.length_le)
      hspec.post.at_statementEnd
    have hord₁ := hord.of_suffix hlead₁.suffix
    obtain ⟨o', k', hsections', hlead₂⟩ := hsections.lead hlead₁.inputs hord₁ hl₂
      fun i i' hi hord => sectionsStep_lead hC hi hord
    have hord₂ := hord₁.of_suffix hlead₂.suffix
    obtain ⟨v', u', ws', hn', hu, hlt, hlead₃⟩ := keyword_lead hC hlead₂.inputs hord₂ hn hl₁
    obtain ⟨p', j', h', hlead₄⟩ := h.lead hlead₃.inputs (hord₂.of_suffix hlead₃.suffix) hl
      fun i i' hi hord => bodyStep_lead s.rule hC hi hord
    have hs' : AtSection s k' := by
      have hsec : Grammar.section? u.kind = some s := hn.peek_zero ▸ hs
      rw [AtSection, hn'.peek_zero, hu.kind, hsec]
    refine ⟨j', _, _, .inside hsections' hs' hn' h', ?_, fun D k k' hD hD' hk => ?_⟩
    · have := hlead₁.trans (hlead₂.trans (hlead₃.trans hlead₄))
      simpa only [Output.append_assoc] using this
    · exact continues_remainsOf hD hD' hk s hu hlt

/-! ## Finding a statement -/

/-- The kinds behind the sections of a document. -/
def InEnd (k : Kind) : Prop := k.isToken = true ∨ k = .errorNode ∨ k = .endNode

theorem inEnd_of_isLexed {k : Kind} (h : k.isLexed = true) : InEnd k :=
  .inl (Kind.isToken_of_isLexed h)

/-- The forest of a document: its first body, its sections and its end. -/
theorem document_parts (hi : i.Proper) {f : List Skeleton}
    (h : (document i).output.events = .start .document :: (Skeleton.eventsAll f ++ [.finish])) :
    ∃ fb fs fe, f = fb ++ (fs ++ fe) ∧ (body .implicit i).output.events = Skeleton.eventsAll fb ∧
      (sections (body .implicit i).rest).output.events = Skeleton.eventsAll fs ∧
      (remains (endMark (sections (body .implicit i).rest).rest)).events = Skeleton.eventsAll fe ∧
      (∀ k, .start k ∈ Skeleton.eventsAll fb → InBody k) ∧
      ∀ k, .start k ∈ Skeleton.eventsAll fe → InEnd k := by
  have hbody := spec_body (P := fun _ => True) inBody_of_inline (.inr rfl) .implicit i hi
    (Nat.le_refl _) trivial
  have hsections := spec_sections (K := fun _ => True) (fun _ _ => trivial) (fun _ _ => trivial)
    trivial trivial _ (hbody.proper hi) (Nat.le_refl _) hbody.post
  have hskips : Skips InEnd := ⟨.inr (.inl rfl), fun k hk _ => inEnd_of_isLexed hk⟩
  have hend := spec_endMark hskips (fun k hk => .inl (Kind.isToken_of_isSectionKeyword hk)) (.inl rfl) (.inr (.inr rfl)) _
    (hsections.proper (hbody.proper hi)) (Nat.le_refl _) hsections.post
  obtain ⟨xs, fb, ht, he⟩ := hbody.trace
  obtain ⟨ys, fs, _, hs⟩ := hsections.trace
  obtain ⟨zs, fe, ht', he'⟩ := hend.trace
  have hlast : (remains (endMark (sections (body .implicit i).rest).rest)).events =
      Skeleton.eventsAll (fe ++ Skeleton.trivia
        (endMark (sections (body .implicit i).rest).rest).rest.tokens) := by
    rw [remains, Output.events_append, he', Skeleton.eventsAll_append, Skeleton.eventsAll_trivia]
    rfl
  refine ⟨fb, fs, _, ?_, he, hs, hlast, fun k hk => ht.start_mem hk, fun k hk => ?_⟩
  · refine Skeleton.eventsAll_injective ?_
    rw [document_run hi, Output.enclosed, List.cons.injEq, List.append_cancel_right_eq] at h
    rw [← h.2, Skeleton.eventsAll_append, Skeleton.eventsAll_append, ← he, ← hs, ← hlast]
    simp only [contents, bind_run, remains, Output.events_append, List.append_assoc]
  · rw [Skeleton.eventsAll_append, List.mem_append] at hk
    rcases hk with hk | hk
    · exact ht'.start_mem hk
    · rw [Skeleton.eventsAll_eq_flatMap, List.mem_flatMap] at hk
      obtain ⟨s, hs, hk⟩ := hk
      exact absurd hk (start_not_mem_trivia k _ s hs)

/-- A piece of what a document reads as a statement, in the round that reads it. -/
structure Seat (i : Input) (rule : StatementRule) (j : Input) (pre : Output) (post : Input → Output)
    (g₁ : List Skeleton) (s : Skeleton) (g₂ : List Skeleton) : Prop where
  reaches : Reaches i rule j pre post
  proper : j.Proper
  inside : ¬ At Grammar.statementEnd j
  forest : (statement rule j).output.events = Skeleton.eventsAll (g₁ ++ s :: g₂)

theorem start_mem_events {kind : Kind} {cs : List Skeleton} {f₁ f₂ : List Skeleton} :
    .start kind ∈ Skeleton.eventsAll (f₁ ++ .node kind cs :: f₂) := by
  simp [Skeleton.eventsAll_append, Skeleton.eventsAll, Skeleton.events]

section Locate

variable (hi : i.Proper) {f₁ f₂ cs : List Skeleton} {kind : Kind}

include hi

theorem body_seat {rule : StatementRule}
    (hf : (body rule i).output.events = Skeleton.eventsAll (f₁ ++ .node kind cs :: f₂))
    (hk : kind.isStatement = true) :
    ∃ o j g₁ g₂, Loops (bodyStep rule) i o j ∧ j.Proper ∧ ¬ At Grammar.statementEnd j ∧
      (statement rule j).output.events = Skeleton.eventsAll (g₁ ++ .node kind cs :: g₂) ∧
      Skeleton.eventsAll f₁ = o.events ++ Skeleton.eventsAll g₁ := by
  obtain ⟨o, j, F₁, g₁, g₂, F₂, hloops, hj, hend, ho, hstatement, _, rfl, _⟩ := body_locate hi hf hk
  refine ⟨o, j, g₁, g₂, hloops, hj, hend, hstatement, ?_⟩
  rw [Skeleton.eventsAll_append, ho]

/-- A statement that is a root of the forest stands before all sections. -/
theorem seat_top (h : (document i).output.events =
      .start .document :: (Skeleton.eventsAll (f₁ ++ .node kind cs :: f₂) ++ [.finish]))
    (hk : kind.isStatement = true) : ∃ j pre post g₁ g₂,
      Seat i .implicit j pre post g₁ (.node kind cs) g₂ ∧
        Skeleton.eventsAll f₁ = pre.events ++ Skeleton.eventsAll g₁ := by
  obtain ⟨fb, fs, fe, hf, hb, hs, _, _, hend⟩ := document_parts hi h
  rcases append_eq_append_cons hf.symm with ⟨m, rfl, _⟩ | ⟨m, hm, _⟩
  · obtain ⟨o, j, g₁, g₂, hloops, hj, hinside, hstatement, he⟩ := body_seat hi hb hk
    exact ⟨j, o, _, g₁, g₂, ⟨.top hloops, hj, hinside, hstatement⟩, he⟩
  rcases append_eq_append_cons hm with ⟨m', rfl, _⟩ | ⟨m', rfl, _⟩
  · have hrest := (spec_body (K := fun _ => True) (P := fun _ => True) (fun _ _ => trivial) trivial
      .implicit i hi (Nat.le_refl _) trivial).proper hi
    obtain ⟨sec, o, j, F₁, v, t, us, g, _, _, _, _, _, hnode, _⟩ :=
      sections_locate hrest hs (k := kind) (by simp [Skeleton.events])
    cases hnode
    cases hk
  · rcases hend kind start_mem_events with h | rfl | rfl
    · rw [Kind.not_isStatement_of_isToken h] at hk
      cases hk
    · cases hk
    · cases hk

/-- A statement below a section is read by the rule of the section's keyword. -/
theorem seat_inside {h₁ h₂ : List Skeleton} (h : (document i).output.events =
      .start .document :: (Skeleton.eventsAll
        (f₁ ++ .node .sectionNode (h₁ ++ .node kind cs :: h₂) :: f₂) ++ [.finish]))
    (hk : kind.isStatement = true) : ∃ s keyword span j pre post g₁ g₂,
      Seat i s.rule j pre post g₁ (.node kind cs) g₂ ∧
        h₁.head? = some (.leaf keyword span) ∧ Grammar.section? keyword = some s ∧
        Skeleton.eventsAll f₁ ++ .start .sectionNode :: Skeleton.eventsAll h₁ =
          pre.events ++ Skeleton.eventsAll g₁ := by
  obtain ⟨fb, fs, fe, hf, hb, hs, _, hbody, hend⟩ := document_parts hi h
  rcases append_eq_append_cons hf.symm with ⟨m, rfl, _⟩ | ⟨m, hm, rfl⟩
  · rcases hbody .sectionNode start_mem_events with h | h
    · cases h
    · cases h
  rcases append_eq_append_cons hm with ⟨m', rfl, _⟩ | ⟨m', rfl, _⟩
  · have hrest := (spec_body (K := fun _ => True) (P := fun _ => True) (fun _ _ => trivial) trivial
      .implicit i hi (Nat.le_refl _) trivial).proper hi
    obtain ⟨sec, o, j, F₁, v, t, us, g, hloops, hj, hsec, hn, ho, hnode, hg, rfl, _⟩ :=
      sections_locate hrest hs (k := .sectionNode) (by simp [Skeleton.events])
    have hchildren := (Skeleton.node.inj hnode).2
    cases h₁ with
    | nil => cases (List.cons.inj hchildren).1
    | cons x h₁ =>
      obtain ⟨rfl, rfl⟩ := List.cons.inj hchildren
      have hafter : (j.after t us).Proper := hj.of_suffix rfl ⟨v ++ [t], by simp [hn.tokens, Input.after]⟩
      obtain ⟨p, k, g₁, g₂, hloops', hk', hinside, hstatement, he⟩ := body_seat hafter hg hk
      have hsec' : Grammar.section? t.kind = some sec := hn.peek_zero ▸ hsec
      refine ⟨sec, t.kind, t.span, k, _, _, g₁, g₂,
        ⟨.inside hloops hsec hn hloops', hk', hinside, hstatement⟩, rfl, hsec', ?_⟩
      simp only [Output.events_append, hb, ho, Skeleton.eventsAll_append, Skeleton.eventsAll_trivia,
        Skeleton.eventsAll, Skeleton.events, he, List.append_assoc]
      rfl
  · rcases hend .sectionNode start_mem_events with h | h | h <;> cases h

/-- Neither documents nor sections are nested. -/
theorem document_nesting (h : (document i).output.events =
      .start .document :: (Skeleton.eventsAll (f₁ ++ .node kind cs :: f₂) ++ [.finish])) :
    kind ≠ .document ∧ ∀ k, .start k ∈ Skeleton.eventsAll cs → k ≠ .document ∧ k ≠ .sectionNode := by
  have hin : ∀ k, InBody k ∨ InEnd k → k ≠ .document ∧ k ≠ .sectionNode := by
    rintro k ((h | h) | (h | h | h)) <;> constructor <;> rintro rfl <;> cases h
  obtain ⟨fb, fs, fe, hf, hb, hs, _, hbody, hend⟩ := document_parts hi h
  have hevents : ∀ {k f₁ f₂}, .start k ∈ Skeleton.eventsAll cs →
      .start k ∈ Skeleton.eventsAll (f₁ ++ .node kind cs :: f₂) := by
    intro k f₁ f₂ hk
    simp [Skeleton.eventsAll_append, Skeleton.eventsAll, Skeleton.events, hk]
  rcases append_eq_append_cons hf.symm with ⟨m, rfl, _⟩ | ⟨m, hm, _⟩
  · exact ⟨(hin _ (.inl (hbody _ start_mem_events))).1, fun k hk => hin _ (.inl (hbody k (hevents hk)))⟩
  rcases append_eq_append_cons hm with ⟨m', rfl, _⟩ | ⟨m', rfl, _⟩
  · have hrest := (spec_body (K := fun _ => True) (P := fun _ => True) (fun _ _ => trivial) trivial
      .implicit i hi (Nat.le_refl _) trivial).proper hi
    obtain ⟨sec, o, j, F₁, v, t, us, g, _, hj, _, hn, _, hnode, hg, _⟩ :=
      sections_locate hrest hs (k := kind) (by simp [Skeleton.events])
    obtain ⟨rfl, rfl⟩ := Skeleton.node.inj hnode
    refine ⟨Kind.noConfusion, fun k hk => hin _ (.inl ?_)⟩
    have hafter : (j.after t us).Proper := hj.of_suffix rfl ⟨v ++ [t], by simp [hn.tokens, Input.after]⟩
    obtain ⟨xs, g', ht, he⟩ := (spec_body (P := fun _ => True) inBody_of_inline (.inr rfl) sec.rule
      (j.after t us) hafter (Nat.le_refl _) trivial).trace
    obtain rfl := Skeleton.eventsAll_injective (he.symm.trans hg)
    refine ht.start_mem ?_
    simpa [Skeleton.eventsAll, Skeleton.events] using hk
  · exact ⟨(hin _ (.inr (hend _ start_mem_events))).1, fun k hk => hin _ (.inr (hend k (hevents hk)))⟩

end Locate

end Rule

end LpFormat
