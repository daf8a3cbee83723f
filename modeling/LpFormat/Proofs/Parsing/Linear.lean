import LpFormat.Proofs.Parsing.Operand

/-!
# Labels, terms, constants and linear expressions: specifications

Terms and constants take a token wherever they are asked for, and what is missing in them is reported
right behind it. `n < j.taken` says that a rule that started after at most `n` tokens has taken one.

* `Rule.spec_label`, `Rule.spec_term`, `Rule.spec_constant`;
* `Rule.spec_continueLine`: the only rule that takes line ends inside a statement;
* `Rule.spec_expression`, `Rule.spec_comparisonTail`.
-/

namespace LpFormat.Rule

variable {K : Kind → Prop} {n : Nat} {P : Input → Prop}

theorem inline_ofList {ks : List Kind} (h : ∀ k ∈ ks, k.isInline = true) :
    ∀ k, (KindSet.ofList ks).contains k = true → k.isInline = true :=
  fun k hk => h k (List.contains_iff_mem.1 hk)

theorem inline_signs : ∀ k, Grammar.signs.contains k = true → k.isInline = true :=
  inline_ofList (by decide)

theorem inline_literals : ∀ k, Grammar.literals.contains k = true → k.isInline = true :=
  inline_ofList (by decide)

theorem inline_comparisons : ∀ k, Grammar.comparisons.contains k = true → k.isInline = true :=
  inline_ofList (by decide)

theorem inline_junk : ∀ k, Grammar.junk.contains k = true → k.isInline = true :=
  inline_ofList (by decide)

theorem inline_termFirst : ∀ k, Grammar.termFirst.contains k = true → k.isInline = true :=
  inline_ofList (by decide)

theorem inline_constantFirst : ∀ k, Grammar.constantFirst.contains k = true → k.isInline = true :=
  inline_ofList (by decide)

theorem inline_variableFirst : ∀ k, Grammar.variableFirst.contains k = true → k.isInline = true :=
  inline_ofList (by decide)

theorem ne_eof_of_inline {k : Kind} (h : k.isInline = true) : k ≠ .eof := by
  rintro rfl
  cases h

theorem admitted (hK : Inline K) {k : Kind} (h : k.isInline = true) : k ≠ .eof ∧ K k :=
  ⟨ne_eof_of_inline h, hK k h⟩

section Linear

variable (hK : Inline K)

include hK

/-- Taking a token of a set of tokens that stand inside a line. -/
theorem spec_bump_at {s : KindSet} (hs : ∀ k, s.contains k = true → k.isInline = true)
    (hP : ∀ i, P i → At s i) : Spec K n P bump fun _ j => n < j.taken :=
  .bump_begun fun i _ h => admitted hK (hs _ (hP i h))

/-- Skipping a token that gives up nothing but itself. -/
theorem spec_skipToken (e : Expected) (hP : ∀ i, P i → At Grammar.junk i) :
    Spec K n P (skipToken e) fun _ j => n < j.taken := by
  refine .pre (P := At Grammar.junk) ?_ hP
  refine .skipToken e (stable_at _) (hK _ rfl) ?_ ?_
  · exact fun i h => ne_eof_of_inline (inline_junk _ h)
  · exact fun i _ h => hK _ (inline_junk _ h)

theorem spec_invalidNumber {R : Input → Prop} (hP : ∀ i, P i → (i.peek 0).kind = .invalidNumber)
    (hR : ∀ i j : Input, P i → (∀ m, j.peek m = i.peek (m + 1)) → R j) :
    Spec K n P invalidNumber fun _ j => n < j.taken ∧ R j := by
  refine .flag (p := bump) (fun t => .invalidNumber t.text) (fun _ => [])
    (fun _ => Problem.noConfusion) (fun t t' _ ht => by rw [ht]) (fun i h => by simp [hP i h]) ?_
  refine fun m _ => .bump (fun i _ h => ?_) fun i j h hlt hp => ⟨hlt, hR i j h hp⟩
  rw [hP i h]
  exact admitted hK rfl

theorem spec_variableName {R : Input → Prop} (hP : ∀ i, P i → At Grammar.variableFirst i)
    (hR : ∀ i j : Input, P i → (∀ m, j.peek m = i.peek (m + 1)) → R j) :
    Spec K n P variableName fun _ j => n < j.taken ∧ R j := by
  refine .ifKind ?_ ?_
  · exact spec_invalidNumber hK (fun i h => h.2) fun i j h hp => hR i j h.1 hp
  · refine .bump (fun i _ h => ?_) fun i j h hlt hp => ⟨hlt, hR i j h.1 hp⟩
    exact admitted hK (inline_variableFirst _ (hP i h.1))

theorem spec_invalidNumber_begun (hP : ∀ i, P i → (i.peek 0).kind = .invalidNumber) :
    Spec K n P invalidNumber fun _ j => n < j.taken :=
  (spec_invalidNumber (R := fun _ => True) hK hP fun _ _ _ _ => trivial).post fun _ _ h => h.1

theorem spec_variableName_begun (hP : ∀ i, P i → At Grammar.variableFirst i) :
    Spec K n P variableName fun _ j => n < j.taken :=
  (spec_variableName (R := fun _ => True) hK hP fun _ _ _ _ => trivial).post fun _ _ h => h.1

/-- Whether a label comes next. -/
def AtLabel (separators : KindSet) (i : Input) : Prop :=
  (i.peek 0).kind = .ident ∧ separators.contains (i.peek 1).kind = true

instance (separators : KindSet) (i : Input) : Decidable (AtLabel separators i) :=
  inferInstanceAs (Decidable (_ ∧ _))

omit hK in
theorem steady_atLabel (separators : KindSet) : Steady (AtLabel separators) := by
  intro C i i' hC hi
  have h₀ := hi.peek_zero hC
  rw [AtLabel, AtLabel, h₀.kind]
  by_cases hk : (i.peek 0).kind = .ident
  · have h₁ := hi.peek_of_lt hC 1 fun m hm => by
      obtain rfl : m = 0 := by omega
      rw [hk]
      rfl
    rw [h₁.kind]
  · simp only [hk, false_and]

/-- A label takes its two tokens if it is next; otherwise nothing changes. -/
theorem spec_label {separators : KindSet} {R : Input → Prop}
    (hs : ∀ k, separators.contains k = true → k.isInline = true)
    (hR : ∀ i j : Input, P i → AtLabel separators i → (∀ m, j.peek m = i.peek (m + 2)) → R j) :
    Spec K n P (label separators) fun _ j =>
      P j ∧ ¬ AtLabel separators j ∨ n < j.taken ∧ R j := by
  refine .branch (c := AtLabel separators) (steady_atLabel separators) ?_ (.pure fun i h => .inl h)
  -- inside the node only what is ahead is known of the place where it begins
  refine .pre (P := fun i => ∃ i₀, P i₀ ∧ AtLabel separators i₀ ∧ ∀ m, i.peek m = i₀.peek m) ?_
    fun i h => ⟨i, h.1, h.2, fun _ => rfl⟩
  refine .post (Q := fun _ j => n < j.taken ∧ R j) ?_ fun _ _ h => .inr h
  refine .node ?_ ?_ rfl (hK _ rfl) fun m _ => ?_
  · rintro i j hp _ ⟨i₀, h₀, hl, h⟩
    exact ⟨i₀, h₀, hl, fun m => (hp m).trans (h m)⟩
  · rintro i ⟨i₀, _, hl, h⟩
    rw [h 0, hl.1]
    exact Kind.noConfusion
  · refine .bind (Q := fun _ j => ∃ i₀, P i₀ ∧ AtLabel separators i₀ ∧
      ∀ m, j.peek m = i₀.peek (m + 1)) (.bump ?_ ?_) fun _ => .bump ?_ ?_
    · rintro i _ ⟨i₀, _, hl, h⟩
      rw [h 0, hl.1]
      exact admitted hK rfl
    · rintro i j ⟨i₀, h₀, hl, h⟩ _ hp
      exact ⟨i₀, h₀, hl, fun m => (hp m).trans (h (m + 1))⟩
    · rintro i _ ⟨i₀, _, hl, h⟩
      rw [h 0]
      exact admitted hK (hs _ hl.2)
    · rintro i j ⟨i₀, h₀, hl, h⟩ hlt hp
      exact ⟨hlt, hR i₀ j h₀ hl fun m => (hp m).trans (h (m + 1))⟩

/-- Whether a malformed number stands where a number and a variable should. -/
def AtBadNumber (i : Input) : Prop :=
  (i.peek 0).kind = .invalidNumber ∧ Grammar.variableFirst.contains (i.peek 1).kind = true

instance (i : Input) : Decidable (AtBadNumber i) := inferInstanceAs (Decidable (_ ∧ _))

omit hK in
theorem steady_atBadNumber : Steady AtBadNumber := by
  intro C i i' hC hi
  have h₀ := hi.peek_zero hC
  rw [AtBadNumber, AtBadNumber, h₀.kind]
  by_cases hk : (i.peek 0).kind = .invalidNumber
  · have h₁ := hi.peek_of_lt hC 1 fun m hm => by
      obtain rfl : m = 0 := by omega
      rw [hk]
      rfl
    rw [h₁.kind]
  · simp only [hk, false_and]

omit hK in
/-- What can start a term and is neither a sign nor a number names the variable. -/
theorem at_variableFirst {i : Input} (ht : At Grammar.termFirst i) (hs : ¬ At Grammar.signs i)
    (hl : ¬ At Grammar.literals i) : At Grammar.variableFirst i := by
  obtain h | h | h := Grammar.contains_termFirst.1 ht
  · exact absurd h hs
  · exact absurd h hl
  · exact h

theorem spec_term :
    Spec K n (At Grammar.termFirst) term fun _ j => n < j.taken := by
  refine .post (Q := fun _ j => n < j.taken ∧ True) ?_ fun _ _ h => h.1
  refine .node (stable_at _) (fun i h => ne_eof_of_inline (inline_termFirst _ h)) rfl (hK _ rfl)
    fun m _ => .post (Q := fun _ j => m < j.taken) ?_ fun _ _ h => ⟨h, trivial⟩
  have hvariable : Spec K m (fun j => m < j.taken ∨ At Grammar.variableFirst j)
      (atSet Grammar.variableFirst >>= fun b => if b = true then variableName
        else missing .variableUse) fun _ j => m < j.taken := by
    refine .ifAt (spec_variableName_begun hK fun i h => h.2) ?_
    refine (Spec.missing _ ?_).post ?_
    · exact fun i h => h.1.resolve_right h.2
    · exact fun _ i h => h.1.resolve_right h.2
  refine .bind (.bumpWhile fun k hk => admitted hK (inline_signs k hk)) fun _ => .ifAt ?_ ?_
  · refine .bind (spec_bump_at hK inline_literals fun i h => h.2) fun _ => ?_
    exact hvariable.pre fun i h => .inl h
  · refine .branch (c := AtBadNumber) steady_atBadNumber ?_ ?_
    · refine .bind (spec_invalidNumber_begun hK fun i h => h.2.1) fun _ => ?_
      exact hvariable.pre fun i h => .inl h
    · refine hvariable.pre ?_
      rintro i ⟨⟨⟨ht | hlt, hs⟩, hl⟩, _⟩
      · exact .inr (at_variableFirst ht hs hl)
      · exact .inl hlt

theorem spec_constant (hP : ∀ i, P i → n < i.taken ∨ At Grammar.constantFirst i) :
    Spec K n P constant fun _ j => n < j.taken := by
  refine .ifAt ?_ ?_
  · refine .pre (P := At Grammar.constantFirst) ?_ fun i h => h.2
    refine .post (Q := fun _ j => n < j.taken ∧ True) ?_ fun _ _ h => h.1
    refine .node (stable_at _) (fun i h => ne_eof_of_inline (inline_constantFirst _ h)) rfl
      (hK _ rfl) fun m _ => .post (Q := fun _ j => m < j.taken) ?_ fun _ _ h => ⟨h, trivial⟩
    refine .bind (.bumpWhile fun k hk => admitted hK (inline_signs k hk)) fun _ => .ifAt ?_ ?_
    · exact spec_bump_at hK inline_literals fun i h => h.2
    · refine .ifKind (spec_invalidNumber_begun hK fun i h => h.2) ?_
      -- nothing else can start a constant, so a sign was taken
      have hlt : ∀ i : Input, (((At Grammar.constantFirst i ∨ m < i.taken) ∧
          ¬ At Grammar.signs i) ∧ ¬ At Grammar.literals i) ∧ (i.peek 0).kind ≠ .invalidNumber →
          m < i.taken := by
        rintro i ⟨⟨⟨hc | hlt, hs⟩, hl⟩, hk⟩
        · obtain h | h | h := Grammar.contains_constantFirst.1 hc
          · exact absurd h hs
          · exact absurd h hl
          · exact absurd h hk
        · exact hlt
      exact (Spec.missing _ hlt).post fun _ => hlt
  · refine (Spec.recover hK.skips _ fun i h => ?_).post fun _ _ h => h.1
    exact .inr ((hP i h.1).resolve_right h.2)

theorem spec_comparisonTail :
    Spec K n (fun i => n < i.taken) comparisonTail fun _ j => n < j.taken := by
  refine .ifAt ?_ ?_
  · refine .bind (spec_bump_at hK inline_comparisons fun i h => h.2) fun _ => ?_
    exact spec_constant hK fun i h => .inl h
  · exact (Spec.recover hK.skips _ fun i h => .inr h.1).post fun _ _ h => h.1

end Linear

/-! ## Expressions -/

theorem kind_nth_newlineRun (eof : Token) (ts : List Token) :
    ∀ m < Input.newlineRun ts, (Input.nth eof m ts).kind = .newline := by
  induction ts with
  | nil => exact fun m hm => absurd hm (Nat.not_lt_zero m)
  | cons t ts ih =>
    intro m hm
    rw [Input.newlineRun] at hm
    by_cases htr : t.kind.isTrivia = true
    · rw [if_pos htr] at hm
      rw [Input.nth_cons_trivia htr]
      exact ih m hm
    · have hsig : t.kind.isTrivia = false := by simpa using htr
      rw [if_neg htr] at hm
      split_ifs at hm with hnl
      · cases m with
        | zero => rw [Input.nth_zero_cons hsig, hnl]
        | succ m =>
          rw [Input.nth_succ_cons hsig]
          exact ih m (by omega)
      · exact absurd hm (Nat.not_lt_zero m)

/-- What decides whether an expression goes on in the next line: how many line ends are ahead, and
what stands behind them. -/
def lineAhead (i : Input) : Nat × Kind :=
  (Input.newlineRun i.tokens, (i.peek (Input.newlineRun i.tokens)).kind)

theorem continueLine_eq :
    continueLine = (fun i => ⟨lineAhead i, {}, i⟩ : Rule (Nat × Kind)) >>= fun a =>
      if 0 < a.1 ∧ (Grammar.termFirst.contains a.2 ∨ Grammar.junk.contains a.2) then bumpTimes a.1
      else pure () := by
  funext i
  by_cases hc : 0 < (lineAhead i).1 ∧
      (Grammar.termFirst.contains (lineAhead i).2 ∨ Grammar.junk.contains (lineAhead i).2)
  · have hl : continueLine i = bumpTimes (lineAhead i).1 i := if_pos hc
    have hr : (if _ then bumpTimes (lineAhead i).1 else pure ()) = _ := if_pos hc
    exact hl.trans (congrFun hr i).symm
  · have hl : continueLine i = (pure () : Rule Unit) i := if_neg hc
    have hr : (if _ then bumpTimes (lineAhead i).1 else pure ()) = _ := if_neg hc
    exact hl.trans (congrFun hr i).symm

section Expression

variable (hK : Inline K) (hnl : K .newline)

include hnl

theorem spec_bumpTimes (l : Nat) :
    Spec K n (fun i => n < i.taken ∧ ∀ m < l, (i.peek m).kind = .newline) (bumpTimes l)
      fun _ j => n < j.taken := by
  induction l with
  | zero => exact .pure fun i h => h.1
  | succ l ih =>
    refine .bind (.bump ?_ ?_) fun _ => ih
    · rintro i _ ⟨_, h⟩
      rw [h 0 (Nat.succ_pos l)]
      exact ⟨Kind.noConfusion, hnl⟩
    · intro i j h hlt hp
      refine ⟨hlt, fun m hm => ?_⟩
      rw [hp m]
      exact h.2 (m + 1) (Nat.succ_lt_succ hm)

theorem spec_continueLine :
    Spec K n (fun i => n < i.taken) continueLine fun _ j => n < j.taken := by
  -- both inputs of a comparison have as many line ends next, and the same kind behind them
  have hahead : Steady lineAhead := by
    intro C i i' hC hi
    obtain ⟨h₁, h₂⟩ := hi.continues hC
    simp only [lineAhead, h₁, h₂]
  rw [continueLine_eq]
  refine .bind (.test (hahead.on _)) fun a => .ite (fun _ => ?_) fun _ => .pure fun i h => h.1
  refine (spec_bumpTimes hnl a.1).pre ?_
  rintro i ⟨hlt, rfl⟩
  exact ⟨hlt, kind_nth_newlineRun i.eof i.tokens⟩

include hK

omit hnl in
/-- If junk or a term is next, the operand takes it. -/
theorem spec_operandTail :
    Spec K n (fun i => (At Grammar.termFirst i ∨ At Grammar.junk i) ∨ n < i.taken) operandTail
      fun _ j => n < j.taken := by
  refine .bind (.repeatWhile (Q := fun j => ¬ At Grammar.junk j) fun m hm => .ifAt ?_ ?_) fun _ =>
    .ifAt ((spec_term hK).pre fun i h => h.2) ?_
  · refine .bind (spec_skipToken hK _ fun i h => h.2) fun _ => .pure fun j h => ?_
    exact ⟨.inr (Nat.lt_of_le_of_lt hm h), fun _ => h, Bool.noConfusion⟩
  · exact .pure fun j h => ⟨h.1, Bool.noConfusion, fun _ => h.2⟩
  · have hbegun : ∀ i, (((At Grammar.termFirst i ∨ At Grammar.junk i) ∨ n < i.taken) ∧
        ¬ At Grammar.junk i) ∧ ¬ At Grammar.termFirst i → n < i.taken := by
      rintro i ⟨⟨(h | h) | h, hjunk⟩, hterm⟩
      · exact absurd h hterm
      · exact absurd h hjunk
      · exact h
    exact (Spec.missing _ hbegun).post fun _ i h => hbegun i h

theorem spec_flatOperand :
    Spec K n (fun i => n < i.taken) flatOperand fun _ j => n < j.taken :=
  .bind (spec_continueLine hnl) fun _ => (spec_operandTail hK).pre fun _ h => .inr h

theorem spec_expressionStep :
    Spec K n P expressionStep fun b j => b = true → n < j.taken := by
  let ahead : Input → Bool × Bool × Kind := fun i =>
    ((Grammar.operator? (i.peek 0).kind).isSome, isSignedLiteral (i.peek 0), (i.peek 0).kind)
  have hahead : Steady ahead := by
    intro C i i' hC hi
    have h := hi.peek_zero hC
    simp only [ahead, h.kind, h.signed]
  rw [expressionStep_eq]
  change Spec K n P ((fun i => ⟨ahead i, {}, i⟩ : Rule (Bool × Bool × Kind)) >>= fun a =>
    if a.1 = true then bump >>= fun _ => flatOperand >>= fun _ => pure true
    else if a.2.1 = true then term >>= fun _ => pure true
    else if Grammar.junk.contains a.2.2 = true then skipToken .operator >>= fun _ => pure true
    else pure false) _
  refine .bind (.test (hahead.on _)) fun a => .ite (fun ha => ?_) fun _ => .ite (fun ha => ?_) fun _ =>
    .ite (fun ha => ?_) fun _ => .pure fun _ _ => Bool.noConfusion
  · refine .bind (.bump_begun ?_) fun _ => .bind (spec_flatOperand hK hnl) fun _ => .pure fun j h _ => h
    rintro i _ ⟨_, rfl⟩
    refine admitted hK (inline_signs _ ?_)
    rw [← Grammar.isSome_operator?]
    exact ha
  · refine .bind ((spec_term hK).pre ?_) fun _ => .pure fun j h _ => h
    rintro i ⟨_, rfl⟩
    have hl : Grammar.literals.contains (i.peek 0).kind = true := by
      simp only [ahead, isSignedLiteral, Bool.and_eq_true] at ha
      exact ha.1
    exact Grammar.contains_termFirst.2 (.inr (.inl hl))
  · refine .bind (spec_skipToken hK _ ?_) fun _ => .pure fun j h _ => h
    rintro i ⟨_, rfl⟩
    exact ha

/-- An expression takes a token if it is one; otherwise nothing changes. -/
theorem spec_expression :
    Spec K n P expression fun b j =>
      b = true ∧ n < j.taken ∨ b = false ∧ P j ∧ ¬ At Grammar.termFirst j := by
  refine .ifAt ?_ (.pure fun j h => .inr ⟨rfl, h.1, h.2⟩)
  refine .bind (Q := fun _ j => n < j.taken ∧ True)
    (.pre (P := At Grammar.termFirst) ?_ fun i h => h.2) fun _ => .pure fun j h => .inl ⟨rfl, h.1⟩
  refine .node (stable_at _) (fun i h => ne_eof_of_inline (inline_termFirst _ h)) rfl (hK _ rfl)
    fun m _ => .bind (spec_term hK) fun _ => ?_
  refine .repeatWhile fun l hl =>
    (Spec.frame (P := fun _ => True) (spec_expressionStep hK hnl) m).weaken ?_ ?_
  · exact fun i h => ⟨trivial, h⟩
  · exact fun b j h => ⟨h.2, h.1, fun _ => trivial⟩

end Expression

end LpFormat.Rule
