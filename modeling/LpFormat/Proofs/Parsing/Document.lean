import LpFormat.Proofs.Parsing.Statement

/-!
# Documents: specifications

The steps of the three loops of a document as rules of their own, and what a document takes: all of
its tokens.

* `Rule.bodyStep`, `Rule.sectionsStep`, `Rule.afterEndStep`: one round of a loop;
* `Rule.spec_body`, `Rule.spec_sectionBlock`, `Rule.spec_sections`, `Rule.spec_endMark`;
* `Rule.contents`, **`Rule.spec_contents`**: everything inside a document but trivia at its end;
* **`Rule.document_run`**: a document takes all tokens; **`Rule.document_alike`**: documents whose
  tokens correspond are read alike.
-/

namespace LpFormat.Rule

variable {K : Kind → Prop} {n : Nat} {P : Input → Prop}

/-- A section keyword or the end of input is next. -/
def AtBorder (i : Input) : Prop := (i.peek 0).kind = .eof ∨ (i.peek 0).kind.isSectionKeyword = true

theorem AtBorder.at_statementEnd {i : Input} (h : AtBorder i) : At Grammar.statementEnd i :=
  Grammar.contains_statementEnd.2 (.inr h)

/-! ## Bodies -/

/-- One round of a body: a blank line or a statement. -/
def bodyStep (rule : StatementRule) : Rule Bool := do
  let kind ← current
  if kind = .eof ∨ kind.isSectionKeyword then return false
  else if kind = .newline then
    bump
    return true
  else
    statement rule
    return true

theorem body_eq (rule : StatementRule) : body rule = repeatWhile (bodyStep rule) := rfl

section Body

variable (hK : Inline K) (hnl : K .newline)

include hK hnl

theorem spec_bodyStep (rule : StatementRule) :
    Spec K n P (bodyStep rule) fun b j => (b = true → n < j.taken) ∧ (b = false → AtBorder j) := by
  refine .bind (.test (steady_kind.on P)) fun kind => .ite (fun hk => .pure ?_) fun hk =>
    .ite (fun hn => ?_) fun hn => ?_
  · rintro i ⟨_, rfl⟩
    exact ⟨Bool.noConfusion, fun _ => hk⟩
  · refine .bind (.bump_begun ?_) fun _ => .pure fun j h => ⟨fun _ => h, Bool.noConfusion⟩
    rintro i _ ⟨_, rfl⟩
    have hkind : (i.peek 0).kind = .newline := hn
    rw [hkind]
    exact ⟨Kind.noConfusion, hnl⟩
  · refine .bind ((spec_statement hK rule fun _ => hnl).pre ?_) fun _ =>
      .pure fun j h => ⟨fun _ => h.1, Bool.noConfusion⟩
    rintro i ⟨_, rfl⟩ hend
    rcases Grammar.contains_statementEnd.1 hend with h | h
    · exact hn h
    · exact hk h

theorem spec_body (rule : StatementRule) : Spec K n P (body rule) fun _ => AtBorder := by
  refine .weaken (P := fun _ => True) (Q := fun _ j => True ∧ AtBorder j) ?_
    (fun _ _ => trivial) fun _ _ h => h.2
  exact .repeatWhile fun m _ => (spec_bodyStep hK hnl rule).post fun _ _ h => ⟨trivial, h⟩

end Body

/-! ## Sections -/

/-- A section comes next. -/
def AtSection (s : SectionRule) (i : Input) : Prop := Grammar.section? (i.peek 0).kind = some s

/-- One round of the sections of a document. -/
def sectionsStep : Rule Bool := do
  let t ← peek 0
  match Grammar.section? t.kind with
  | some s =>
    sectionBlock s
    if (← current) = .eof then report (.unterminatedSection s.name) t.span
    return true
  | none => return false

theorem sections_eq : sections = repeatWhile sectionsStep := rfl

/-- The report about a section that is open at the end of input. -/
def closing (s : SectionRule) (keyword : Token) (j : Input) : Output :=
  if (j.peek 0).kind = .eof then .report ⟨.unterminatedSection s.name, keyword.span⟩ else {}

theorem sectionsStep_none {i : Input} (h : Grammar.section? (i.peek 0).kind = none) :
    sectionsStep i = ⟨false, {}, i⟩ := by
  change (match Grammar.section? (i.peek 0).kind with
    | some s => _
    | none => pure false : Rule Bool) i = _
  rw [h]
  rfl

theorem sectionsStep_some {i : Input} {s : SectionRule} (h : AtSection s i) :
    sectionsStep i = ⟨true, (sectionBlock s i).output ++
      closing s (i.peek 0) (sectionBlock s i).rest, (sectionBlock s i).rest⟩ := by
  change (match Grammar.section? (i.peek 0).kind with
    | some s => sectionBlock s >>= fun _ => current >>= fun k =>
        if k = .eof then report (.unterminatedSection s.name) (i.peek 0).span >>= fun _ => pure true
        else pure true
    | none => pure false : Rule Bool) i = _
  rw [show Grammar.section? (i.peek 0).kind = some s from h]
  let close : Rule Bool := current >>= fun k =>
    if k = .eof then report (.unterminatedSection s.name) (i.peek 0).span >>= fun _ => pure true
    else pure true
  have hclose : ∀ j, close j = ⟨true, closing s (i.peek 0) j, j⟩ := by
    intro j
    change (if (j.peek 0).kind = .eof then _ else _ : Rule Bool) j = _
    rw [closing]
    split_ifs <;> rfl
  change (sectionBlock s >>= fun _ => close) i = _
  rw [bind_run, hclose]

section Sections

variable (hK : Inline K) (hall : ∀ k : Kind, k.isSectionKeyword = true → K k) (hnl : K .newline)
  (hsec : K .sectionNode)

include hK hall hnl hsec

theorem spec_sectionBlock (s : SectionRule) :
    Spec K n (AtSection s) (sectionBlock s) fun _ j => n < j.taken ∧ AtBorder j := by
  have hne : ∀ i, AtSection s i → (i.peek 0).kind ≠ .eof := by
    intro i h hk
    rw [AtSection, hk] at h
    cases h
  refine .node ?_ hne rfl hsec fun m _ => ?_
  · exact fun i j hp _ h => by rwa [AtSection, hp 0]
  · refine .bind (.bump_begun fun i _ h => ⟨hne i h, ?_⟩) fun _ => ?_
    · exact hall _ (Grammar.isSectionKeyword_of_section? h).1
    · refine (Spec.frame (P := fun _ => True) (spec_body hK hnl s.rule) m).weaken ?_ ?_
      · exact fun i h => ⟨trivial, h⟩
      · exact fun _ j h => ⟨h.2, h.1⟩

theorem spec_sectionsStep :
    Spec K n P sectionsStep fun b j => (b = true → n < j.taken) ∧
      (b = true → AtBorder j) ∧ (b = false → P j ∧ Grammar.section? (j.peek 0).kind = none) := by
  intro i hi hn hPi
  cases hs : Grammar.section? (i.peek 0).kind with
  | none =>
    have hrun := sectionsStep_none hs
    refine ⟨⟨[], [], hrun ▸ .nil i, by rw [hrun]; rfl⟩, ?_, fun C i' hC hi' hl => ?_⟩
    · rw [hrun]
      exact ⟨Bool.noConfusion, Bool.noConfusion, fun _ => ⟨hPi, hs⟩⟩
    · rw [hrun, sectionsStep_none (by rw [(hi'.peek_zero hC).kind, hs])]
      exact ⟨rfl, .empty, hi'⟩
  | some s =>
    have hrun := sectionsStep_some hs
    have hblock := spec_sectionBlock hK hall hnl hsec s i hi (Nat.le_refl i.taken) hs
    obtain ⟨hlt, hborder⟩ := hblock.post
    obtain ⟨xs, f, ht, he⟩ := hblock.trace
    have hxs := ht.taken_lt_iff.1 hlt
    obtain ⟨v, t, us, hnext, _⟩ := hi.exists_next (show (i.peek 0).kind ≠ .eof by
      intro hk
      rw [hk] at hs
      cases hs)
    refine ⟨⟨xs, f, ?_, ?_⟩, ?_, fun C i' hC hi' hl => ?_⟩
    · rw [hrun, closing, hnext.peek_zero]
      split_ifs
      · exact .report hnext hxs Problem.noConfusion
          ((List.append_nil _).symm ▸ ht.mono (fun _ h => h) hn)
      · rw [Output.append_empty]
        exact ht.mono (fun _ h => h) hn
    · rw [hrun, closing]
      split_ifs <;> simpa [Output.report] using he
    · rw [hrun]
      exact ⟨fun _ => Nat.lt_of_le_of_lt hn hlt, fun _ => hborder, Bool.noConfusion⟩
    · rw [hrun] at hl ⊢
      have hsame := hblock.alike C i' hC hi' hl
      have hs' : AtSection s i' := by
        rw [AtSection, (hi'.peek_zero hC).kind]
        exact hs
      -- the keyword was taken, so it corresponds in the two inputs
      obtain ⟨v', t', us', hnext', _, htok, _⟩ :=
        hi'.next hnext (Nat.le_trans hl (ht.rest_length_le hnext hxs))
      rw [sectionsStep_some hs']
      refine ⟨rfl, hsame.output.append ?_, hsame.rest⟩
      rw [closing, closing, (hsame.rest.peek_zero hC).kind, hnext.peek_zero, hnext'.peek_zero]
      split_ifs
      · exact .report ⟨htok.span, .inl rfl⟩
      · exact .empty

/-- After the sections comes `End` or nothing. -/
theorem spec_sections :
    Spec K n AtBorder sections fun _ j =>
      AtBorder j ∧ Grammar.section? (j.peek 0).kind = none := by
  refine .repeatWhile fun m _ => (spec_sectionsStep hK hall hnl hsec).post ?_
  rintro b j ⟨h₁, h₂, h₃⟩
  refine ⟨?_, h₁, fun hb => (h₃ hb).2⟩
  cases b with
  | true => exact h₂ rfl
  | false => exact (h₃ rfl).1

end Sections

/-! ## The end -/

/-- One round after `End`. -/
def afterEndStep : Rule Bool := do
  let kind ← current
  if kind = .eof then return false
  else
    if kind = .newline then bump
    else if kind.isSectionKeyword then skipToken .endOfInput
    else recover .endOfInput
    return true

theorem afterEnd_eq : afterEnd = repeatWhile afterEndStep := rfl

section End

variable (hK : Skips K) (hall : ∀ k : Kind, k.isSectionKeyword = true → K k) (hnl : K .newline)

include hK hall hnl

theorem spec_afterEndStep :
    Spec K n P afterEndStep fun b j =>
      (b = true → n < j.taken) ∧ (b = false → (j.peek 0).kind = .eof) := by
  refine .bind (.test (steady_kind.on P)) fun kind => .ite (fun hk => .pure ?_) fun hk =>
    .ite (fun hn => ?_) fun hn => .ite (fun hs => ?_) fun hs => ?_
  · rintro i ⟨_, rfl⟩
    exact ⟨Bool.noConfusion, fun _ => hk⟩
  · refine .bind (.bump_begun ?_) fun _ => .pure fun j h => ⟨fun _ => h, Bool.noConfusion⟩
    rintro i _ ⟨_, rfl⟩
    have hkind : (i.peek 0).kind = .newline := hn
    rw [hkind]
    exact ⟨Kind.noConfusion, hnl⟩
  · refine .bind (.pre (P := fun i => (i.peek 0).kind.isSectionKeyword = true) ?_ ?_) fun _ =>
      .pure fun j h => ⟨fun _ => h, Bool.noConfusion⟩
    · refine .skipToken _ ?_ hK.node ?_ fun i _ h => hall _ h
      · exact fun i j hp _ h => by rwa [hp 0]
      · intro i h hk
        rw [hk] at h
        cases h
    · rintro i ⟨_, rfl⟩
      exact hs
  · refine .bind (Spec.recover hK _ ?_) fun _ => .pure fun j h => ⟨fun _ => h.1, Bool.noConfusion⟩
    rintro i ⟨_, rfl⟩
    refine .inl fun hend => ?_
    rcases Grammar.contains_statementEnd.1 hend with h | h | h
    · exact hn h
    · exact hk h
    · exact hs h

theorem spec_endMark (hend : K .endNode) :
    Spec K n (fun i => AtBorder i ∧ Grammar.section? (i.peek 0).kind = none) endMark
      fun _ j => (j.peek 0).kind = .eof := by
  refine .ifKind ?_ (.pure ?_)
  · refine .bind (Q := fun _ _ => True) ?_ fun _ => ?_
    · refine .pre (P := fun i => (i.peek 0).kind = .endKw) ?_ fun i h => h.2
      refine .post (Q := fun _ j => n < j.taken ∧ True) ?_ fun _ _ _ => trivial
      refine .node ?_ ?_ rfl hend fun m _ => ?_
      · exact fun i j hp _ h => by rwa [hp 0]
      · exact fun i h => by rw [h]; exact Kind.noConfusion
      · refine .post (.bump_begun fun i _ h => ?_) fun _ _ h => ⟨h, trivial⟩
        rw [h]
        exact ⟨Kind.noConfusion, hall _ rfl⟩
    · refine .post (Q := fun _ j => True ∧ (j.peek 0).kind = .eof) ?_ fun _ _ h => h.2
      exact .repeatWhile fun m _ => (spec_afterEndStep hK hall hnl).post fun _ _ h => ⟨trivial, h⟩
  · rintro i ⟨⟨h | h, hs⟩, hk⟩
    · exact h
    · exact absurd (Grammar.eq_endKw_of_section? h hs) hk

end End

/-! ## Whole documents -/

/-- Everything inside a document but trivia at its end. -/
def contents : Rule Unit := do
  body .implicit
  sections
  endMark

theorem spec_contents :
    Spec (fun _ => True) n P contents fun _ j => (j.peek 0).kind = .eof := by
  have hK : Inline fun _ => True := fun _ _ => trivial
  refine .bind (spec_body hK trivial _) fun _ => .bind (spec_sections hK ?_ trivial trivial) fun _ =>
    spec_endMark hK.skips ?_ trivial trivial
  · exact fun _ _ => trivial
  · exact fun _ _ => trivial

/-- **A document takes all tokens.** -/
theorem document_run {i : Input} (hi : i.Proper) :
    document i = ⟨(), .enclosed .document ((contents i).output ++
      .trivia (contents i).rest.tokens), (contents i).rest.advance []⟩ := by
  have hspec := spec_contents (P := fun _ => True) i hi (Nat.le_refl i.taken) trivial
  have hdone := (hspec.proper hi).done hspec.post
  have htrivia := takeTrivia_run (i := (contents i).rest) (List.append_nil _).symm hdone
    (by rintro t ⟨⟩)
  have hseq : document = enclose (contents >>= fun _ => takeTrivia >>= fun _ =>
      pure Kind.document) := by
    rw [contents, bind_assoc]
    simp only [bind_assoc]
    rfl
  rw [hseq, enclose, bind_run, bind_run, htrivia]
  change (⟨(), Output.enclosed .document (_ ++ (_ ++ ({} : Output))), _⟩ : Outcome Unit) = _
  rw [Output.append_empty]
  rfl

/-- **Documents whose tokens correspond to the end are read alike.** -/
theorem document_alike {C : Parallel} {i i' : Input} (h : C.tail = []) (h' : C.tail' = [])
    (hi : C.Inputs i i') : C.Outputs (document i).output (document i').output := by
  have hspec := spec_contents (P := fun _ => True) i hi.proper (Nat.le_refl i.taken) trivial
  have hsame := hspec.alike C i' (Parallel.fenced_nil h h') hi (by simp [h])
  rw [document_run hi.proper, document_run hi.proper']
  obtain ⟨w, w', hw, hw', hall⟩ := hsame.rest.tokens
  rw [h, List.append_nil] at hw
  rw [h', List.append_nil] at hw'
  rw [hw, hw']
  exact (hsame.output.append (.trivia hall)).enclosed .document

end LpFormat.Rule
