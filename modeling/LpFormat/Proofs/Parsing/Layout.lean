import LpFormat.Proofs.Parsing.Lead

/-!
# Where statements stand in a document

The forest of a document is made by rounds of its loops. A statement of the forest, or a section of
it, is found again as a round.

* `Rule.Loops.trace`, **`Rule.Loops.split`**: the forest of rounds, and the round that a piece of it
  comes from;
* `Rule.body_run`, **`Rule.body_locate`**: the round of a statement in a body;
* `Rule.sectionBlock_run`, `Rule.sections_run`, **`Rule.sections_locate`**: the round of a section;
* `Rule.contents_forest`: the forest of a document in three parts.
-/

namespace LpFormat

theorem append_eq_append_cons {α : Type} {a b c d : List α} {x : α} (h : a ++ b = c ++ x :: d) :
    (∃ m, a = c ++ x :: m ∧ d = m ++ b) ∨ ∃ m, b = m ++ x :: d ∧ c = a ++ m := by
  rcases List.append_eq_append_iff.1 h with ⟨m, rfl, hb⟩ | ⟨m, rfl, hx⟩
  · exact .inr ⟨m, hb, rfl⟩
  · cases m with
    | nil =>
      refine .inr ⟨[], hx.symm, by simp⟩
    | cons y m =>
      obtain ⟨rfl, rfl⟩ := List.cons.inj hx
      exact .inl ⟨m, rfl, rfl⟩

namespace Rule

variable {K : Kind → Prop} {n : Nat} {i j : Input} {o : Output}

/-! ## Rounds and forests -/

section Rounds

variable {step : Rule Bool} (hstep : ∀ i : Input, i.Proper → n ≤ i.taken → ∃ xs f,
    Trace K n i xs f (step i).output.diagnostics (step i).rest ∧
      (step i).output.events = Skeleton.eventsAll f)

include hstep

theorem Loops.trace (h : Loops step i o j) (hi : i.Proper) (hn : n ≤ i.taken) :
    ∃ xs f, Trace K n i xs f o.diagnostics j ∧ o.events = Skeleton.eventsAll f := by
  induction h with
  | nil i => exact ⟨[], [], .nil i, rfl⟩
  | cons _ _ _ ih =>
    obtain ⟨xs, f, ht, he⟩ := hstep _ hi hn
    obtain ⟨ys, g, ht', he'⟩ := ih (ht.proper hi) (Nat.le_trans hn ht.taken_le)
    refine ⟨_, _, ht.append ht', ?_⟩
    rw [Output.events_append, he, he', Skeleton.eventsAll_append]

/-- **A piece of the forest of some rounds comes from one of them.** -/
theorem Loops.split (h : Loops step i o j) (hi : i.Proper) (hn : n ≤ i.taken)
    {f₁ f₂ : List Skeleton} {s : Skeleton} (hf : o.events = Skeleton.eventsAll (f₁ ++ s :: f₂)) :
    ∃ o₁ i₁ o₂ F₁ g₁ g₂ F₂, Loops step i o₁ i₁ ∧ i₁.Proper ∧ n ≤ i₁.taken ∧
      (step i₁).value = true ∧ (step i₁).rest.tokens.length < i₁.tokens.length ∧
      Loops step (step i₁).rest o₂ j ∧ o₁.events = Skeleton.eventsAll F₁ ∧
      (step i₁).output.events = Skeleton.eventsAll (g₁ ++ s :: g₂) ∧
      o₂.events = Skeleton.eventsAll F₂ ∧ f₁ = F₁ ++ g₁ ∧ f₂ = g₂ ++ F₂ := by
  induction h generalizing f₁ with
  | nil i =>
    have := @Skeleton.eventsAll_injective [] _ hf
    simp at this
  | @cons i j o hv hlt h ih =>
    obtain ⟨xs, g, ht, he⟩ := hstep i hi hn
    have hi' := ht.proper hi
    have hn' := Nat.le_trans hn ht.taken_le
    obtain ⟨ys, F, _, hF⟩ := h.trace hstep hi' hn'
    have heq : g ++ F = f₁ ++ s :: f₂ := by
      refine Skeleton.eventsAll_injective ?_
      rw [← hf, Output.events_append, he, hF, Skeleton.eventsAll_append]
    rcases append_eq_append_cons heq with ⟨m, rfl, rfl⟩ | ⟨m, rfl, rfl⟩
    · exact ⟨{}, i, o, [], f₁, m, F, .nil i, hi, hn, hv, hlt, h, rfl, he, hF, rfl, rfl⟩
    · obtain ⟨o₁, i₁, o₂, F₁, g₁, g₂, F₂, h₁, hi₁, hn₁, hv₁, hlt₁, h₂, e₁, e₂, e₃, rfl, rfl⟩ :=
        ih hi' hn' hF
      refine ⟨_, i₁, o₂, g ++ F₁, g₁, g₂, F₂, .cons hv hlt h₁, hi₁, hn₁, hv₁, hlt₁, h₂, ?_, e₂, e₃,
        (List.append_assoc _ _ _).symm, rfl⟩
      rw [Output.events_append, he, e₁, Skeleton.eventsAll_append]

end Rounds

/-! ## Bodies -/

/-- The kinds inside a body. -/
def InBody (k : Kind) : Prop := k.isInline = true ∨ k = .newline

theorem inBody_of_inline : Inline InBody := fun _ h => .inl h

theorem trace_bodyStep (rule : StatementRule) (i : Input) (hi : i.Proper) (hn : n ≤ i.taken) :
    ∃ xs f, Trace InBody n i xs f (bodyStep rule i).output.diagnostics (bodyStep rule i).rest ∧
      (bodyStep rule i).output.events = Skeleton.eventsAll f :=
  (spec_bodyStep (P := fun _ => True) inBody_of_inline (.inr rfl) rule i hi hn trivial).trace

theorem body_run (rule : StatementRule) (hi : i.Proper) :
    ∃ o j, Loops (bodyStep rule) i o j ∧ AtBorder j ∧ body rule i = ⟨(), o, j⟩ := by
  obtain ⟨o, j, hloops, hlast, hrun⟩ := repeatWhile_cases (bodyStep rule) i
  obtain ⟨xs, f, ht, _⟩ := hloops.trace (trace_bodyStep rule) hi (Nat.zero_le _)
  have hj := ht.proper hi
  have hspec := spec_bodyStep (K := fun _ => True) (P := fun _ => True) (fun _ _ => trivial) trivial
    rule j hj (Nat.le_refl _) trivial
  have hborder : AtBorder j := by
    by_contra hb
    have hv : (bodyStep rule j).value = true := by
      rcases border_or_inside j with h | h | h
      · exact absurd h hb
      · rw [bodyStep_newline rule h]
      · rw [bodyStep_statement rule h]
    exact hlast ⟨hv, hspec.length_lt (hspec.post.1 hv)⟩
  refine ⟨o, j, hloops, hborder, ?_⟩
  rw [body_eq, hrun, bodyStep_border rule hborder, Output.append_empty]

/-- A body taken up after some rounds and a statement. -/
theorem Loops.body_eq {rule : StatementRule} {i₁ : Input} (h : Loops (bodyStep rule) i o i₁)
    (hi₁ : i₁.Proper) (hend : ¬ At Grammar.statementEnd i₁) :
    body rule i = ⟨(), o ++ (statement rule i₁).output ++ (body rule (statement rule i₁).rest).output,
      (body rule (statement rule i₁).rest).rest⟩ := by
  have hstep := bodyStep_statement rule hend
  have hspec := spec_statement (K := fun _ => True) (fun _ _ => trivial) rule (fun _ => trivial) i₁
    hi₁ (Nat.le_refl i₁.taken) hend
  have hlt := hspec.length_lt hspec.post.1
  have := (h.snoc (by rw [hstep]) (by simpa only [hstep] using hlt)).repeatWhile_eq
  rw [hstep] at this
  exact this

/-- A round that takes a line end takes tokens only. -/
theorem isToken_of_newline {rule : StatementRule} (hi : i.Proper) (h : (i.peek 0).kind = .newline)
    {f : List Skeleton} (hf : (bodyStep rule i).output.events = Skeleton.eventsAll f) :
    ∀ s ∈ f, s.kind.isToken = true := by
  obtain ⟨v, t, us, hn, ht⟩ := hi.exists_next (by rw [h]; exact Kind.noConfusion)
  have hne := hi.ne_eof hn.mem
  rw [bodyStep_newline rule h, bump_eq, bumpAs_next hn hne, eventsAll_token] at hf
  have hff := Skeleton.eventsAll_injective hf
  subst hff
  refine List.forall_mem_append.2 ⟨fun s hs => ?_, ?_⟩
  · obtain ⟨u, hu, rfl⟩ := List.mem_map.1 hs
    exact (Token.ShownAs.same.lexedAs (hi.lexed u (hn.tokens ▸ List.mem_append_left _ hu))).2
  · rw [List.forall_mem_singleton, h]
    rfl

/-- **A statement of the forest of a body comes from a round that reads a statement.** -/
theorem body_locate {rule : StatementRule} (hi : i.Proper) {f₁ f₂ : List Skeleton} {s : Skeleton}
    (hf : (body rule i).output.events = Skeleton.eventsAll (f₁ ++ s :: f₂))
    (hs : s.kind.isStatement = true) :
    ∃ o₁ i₁ F₁ g₁ g₂ F₂, Loops (bodyStep rule) i o₁ i₁ ∧ i₁.Proper ∧
      ¬ At Grammar.statementEnd i₁ ∧ o₁.events = Skeleton.eventsAll F₁ ∧
      (statement rule i₁).output.events = Skeleton.eventsAll (g₁ ++ s :: g₂) ∧
      (body rule (statement rule i₁).rest).output.events = Skeleton.eventsAll F₂ ∧
      f₁ = F₁ ++ g₁ ∧ f₂ = g₂ ++ F₂ := by
  obtain ⟨o, j, hloops, hborder, hrun⟩ := body_run rule hi
  rw [hrun] at hf
  obtain ⟨o₁, i₁, o₂, F₁, g₁, g₂, F₂, h₁, hi₁, _, hv, _, h₂, e₁, e₂, e₃, hf₁, hf₂⟩ :=
    hloops.split (trace_bodyStep rule) hi (Nat.zero_le _) hf
  have hend : ¬ At Grammar.statementEnd i₁ := by
    rcases border_or_inside i₁ with h | h | h
    · rw [bodyStep_border rule h] at hv
      cases hv
    · have := Kind.not_isStatement_of_isToken (isToken_of_newline hi₁ h e₂ s (by simp))
      rw [hs] at this
      cases this
    · exact h
  rw [bodyStep_statement rule hend] at e₂ h₂
  refine ⟨o₁, i₁, F₁, g₁, g₂, F₂, h₁, hi₁, hend, e₁, e₂, ?_, hf₁, hf₂⟩
  have hrest := h₂.repeatWhile_eq
  rw [← Rule.body_eq] at hrest
  rw [hrest, Rule.body_eq, repeatWhile_neg (by rw [bodyStep_border rule hborder]; simp),
    bodyStep_border rule hborder, Output.append_empty]
  exact e₃

/-! ## Sections -/

theorem ne_eof_of_atSection {s : SectionRule} (h : AtSection s i) : (i.peek 0).kind ≠ .eof := by
  intro hk
  rw [AtSection, hk] at h
  cases h

theorem sectionBlock_run (s : SectionRule) {v us : List Token} {t : Token} (hi : i.Proper)
    (hn : i.Next v t us) :
    sectionBlock s i = ⟨(), .trivia v ++ .enclosed .sectionNode (.token t.kind t.span ++
      (body s.rule (i.after t us)).output), (body s.rule (i.after t us)).rest⟩ := by
  have hn' : (i.advance (t :: us)).Next [] t us := ⟨rfl, allTrivia_nil, hn.significant⟩
  have hbump : bump (i.advance (t :: us)) = ⟨(), .token t.kind t.span, i.after t us⟩ := by
    rw [bump_eq, hn'.peek_zero, bumpAs_next hn' (hi.ne_eof hn.mem)]
    rfl
  rw [sectionBlock, node_run hn.tokens hn.trivia hn.head?, bind_run, hbump]

/-- The kinds inside a document. -/
def InDocument (k : Kind) : Prop := k ≠ .document

theorem inDocument_of_inline : Inline InDocument := by
  rintro k h rfl
  cases h

theorem trace_sectionsStep (i : Input) (hi : i.Proper) (hn : n ≤ i.taken) :
    ∃ xs f, Trace InDocument n i xs f (sectionsStep i).output.diagnostics (sectionsStep i).rest ∧
      (sectionsStep i).output.events = Skeleton.eventsAll f := by
  refine (spec_sectionsStep (P := fun _ => True) inDocument_of_inline ?_ ?_ ?_ i hi hn trivial).trace
  · rintro k h rfl
    cases h
  · exact Kind.noConfusion
  · exact Kind.noConfusion

theorem sections_run (hi : i.Proper) : ∃ o j, Loops sectionsStep i o j ∧ j.Proper ∧
    Grammar.section? (j.peek 0).kind = none ∧ sections i = ⟨(), o, j⟩ := by
  obtain ⟨o, j, hloops, hlast, hrun⟩ := repeatWhile_cases sectionsStep i
  obtain ⟨xs, f, ht, _⟩ := hloops.trace trace_sectionsStep hi (Nat.zero_le _)
  have hj := ht.proper hi
  have hspec := spec_sectionsStep (K := fun _ => True) (P := fun _ => True) (fun _ _ => trivial)
    (fun _ _ => trivial) trivial trivial j hj (Nat.le_refl _) trivial
  have hnone : Grammar.section? (j.peek 0).kind = none := by
    cases hs : Grammar.section? (j.peek 0).kind with
    | none => rfl
    | some s =>
      have hv : (sectionsStep j).value = true := by rw [sectionsStep_some hs]
      exact absurd ⟨hv, hspec.length_lt (hspec.post.1 hv)⟩ hlast
  refine ⟨o, j, hloops, hj, hnone, ?_⟩
  rw [sections_eq, hrun, sectionsStep_none hnone, Output.append_empty]

/-- The forest of a round: trivia, and a section around a keyword and a body. -/
theorem sectionsStep_forest {s : SectionRule} (hi : i.Proper) (h : AtSection s i) {v us : List Token}
    {t : Token} (hn : i.Next v t us) : ∃ g,
      (body s.rule (i.after t us)).output.events = Skeleton.eventsAll g ∧
      (sectionsStep i).output.events = Skeleton.eventsAll
        (Skeleton.trivia v ++ [.node .sectionNode (.leaf t.kind t.span :: g)]) := by
  have hafter : (i.after t us).Proper := hi.of_suffix rfl ⟨v ++ [t], by rw [hn.tokens]; simp [Input.after]⟩
  obtain ⟨xs, g, _, hg⟩ := (spec_body (K := fun _ => True) (P := fun _ => True) (fun _ _ => trivial)
    trivial s.rule (i.after t us) hafter (Nat.le_refl _) trivial).trace
  refine ⟨g, hg, ?_⟩
  have hclosing : (closing s (i.peek 0) (sectionBlock s i).rest).events = [] := by
    rw [closing]
    split_ifs <;> rfl
  rw [sectionsStep_some h, Output.events_append, hclosing, List.append_nil,
    sectionBlock_run s hi hn, Skeleton.eventsAll_append, Skeleton.eventsAll_trivia,
    Skeleton.eventsAll_singleton, Skeleton.events, Skeleton.eventsAll, ← hg]
  rfl

theorem start_not_mem_trivia (k : Kind) (v : List Token) :
    ∀ s ∈ Skeleton.trivia v, .start k ∉ s.events := by
  intro s hs
  obtain ⟨u, _, rfl⟩ := List.mem_map.1 hs
  simp [Skeleton.events]

/-- **A section of the forest of a document comes from a round that reads a section.** -/
theorem sections_locate (hi : i.Proper) {f₁ f₂ : List Skeleton} {s : Skeleton}
    (hf : (sections i).output.events = Skeleton.eventsAll (f₁ ++ s :: f₂)) {k : Kind}
    (hs : .start k ∈ s.events) :
    ∃ sec o₁ i₁ F₁ v t us g, Loops sectionsStep i o₁ i₁ ∧ i₁.Proper ∧ AtSection sec i₁ ∧
      i₁.Next v t us ∧ o₁.events = Skeleton.eventsAll F₁ ∧
      s = .node .sectionNode (.leaf t.kind t.span :: g) ∧
      (body sec.rule (i₁.after t us)).output.events = Skeleton.eventsAll g ∧
      f₁ = F₁ ++ Skeleton.trivia v ∧
      (sections (sectionsStep i₁).rest).output.events = Skeleton.eventsAll f₂ := by
  obtain ⟨o, j, hloops, hj, hnone, hrun⟩ := sections_run hi
  rw [hrun] at hf
  obtain ⟨o₁, i₁, o₂, F₁, g₁, g₂, F₂, h₁, hi₁, _, hv, _, h₂, e₁, e₂, e₃, hf₁, hf₂⟩ :=
    hloops.split trace_sectionsStep hi (Nat.zero_le _) hf
  cases hsec : Grammar.section? (i₁.peek 0).kind with
  | none =>
    rw [sectionsStep_none hsec] at hv
    cases hv
  | some sec =>
    obtain ⟨v, t, us, hn, _⟩ := hi₁.exists_next (ne_eof_of_atSection hsec)
    obtain ⟨g, hg, hround⟩ := sectionsStep_forest hi₁ hsec hn
    have heq := Skeleton.eventsAll_injective (hround.symm.trans e₂)
    -- the piece holds a node, so it is not among the trivia in front of the section
    rcases append_eq_append_cons heq with ⟨m, hm, _⟩ | ⟨m, hm, rfl⟩
    · exact absurd hs (start_not_mem_trivia k v s (by rw [hm]; simp))
    · obtain ⟨rfl, hm⟩ : m = [] ∧ _ := by
        cases m with
        | nil => exact ⟨rfl, hm⟩
        | cons x m => simp at hm
      obtain ⟨rfl, rfl⟩ := List.cons.inj hm
      refine ⟨sec, o₁, i₁, F₁, v, t, us, g, h₁, hi₁, hsec, hn, e₁, rfl, hg, by simpa using hf₁, ?_⟩
      have hrest := h₂.repeatWhile_eq
      rw [← sections_eq] at hrest
      rw [hrest, sections_eq, repeatWhile_neg (by rw [sectionsStep_none hnone]; simp),
        sectionsStep_none hnone, Output.append_empty, hf₂]
      exact e₃

end Rule

end LpFormat
