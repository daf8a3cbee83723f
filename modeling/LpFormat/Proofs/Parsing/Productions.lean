import LpFormat.Proofs.Parsing.Shape

/-!
# Shapes of terms, expressions and statements

Each rule of the grammar against the schema and the productions.

* `Rule.runs_term`, `Rule.runs_signedTerm`, `Rule.givesUp_constant`, `Rule.runs_expression`;
* `Rule.runs_implicit`, `Rule.runs_objective`, `Rule.runs_constraint`, `Rule.runs_bound`,
  `Rule.runs_declaration`, `Rule.runs_sosItem`;
* **`Rule.runs_statement`**: a statement of any rule.
-/

namespace LpFormat.Rule

open Computability

variable {P Q : Input → Prop}

theorem atSet_pos {α : Type} {s : KindSet} {p q : Rule α} {i : Input} (h : At s i) :
    (atSet s >>= fun b => if b = true then p else q) i = p i := by
  have hs : s.contains (i.peek 0).kind = true := h
  change (if s.contains (i.peek 0).kind = true then p else q) i = _
  rw [if_pos hs]

theorem atSet_neg {α : Type} {s : KindSet} {p q : Rule α} {i : Input} (h : ¬ At s i) :
    (atSet s >>= fun b => if b = true then p else q) i = q i := by
  have hs : ¬ s.contains (i.peek 0).kind = true := h
  change (if s.contains (i.peek 0).kind = true then p else q) i = _
  rw [if_neg hs]

/-- A token can be taken as it is, as a letter of two languages. -/
def Takeable (A : Language Kind) (G : Language Token) (t : Token) : Prop :=
  t.kind ≠ .eof ∧ t.kind ≠ .invalidNumber ∧ [t.kind] ∈ A ∧ [t] ∈ G

theorem takeable_kind {k : Kind} (hk : k ≠ .eof) (hbad : k ≠ .invalidNumber) {t : Token}
    (h : t.kind = k) : Takeable (Schema.one k) (Production.one k) t := by
  exact ⟨h ▸ hk, h ▸ hbad, mem_single.2 h, mem_single.2 h⟩

theorem Takeable.mono {A B : Language Kind} {G H : Language Token} {t : Token}
    (h : Takeable A G t) (hA : A ≤ B) (hG : G ≤ H) : Takeable B H t :=
  ⟨h.1, h.2.1, hA h.2.2.1, hG h.2.2.2⟩

theorem takeable_signs {t : Token} (h : Grammar.signs.contains t.kind = true) :
    Takeable (Schema.one .plus + Schema.one .minus) Production.sign t := by
  obtain hk | hk := Grammar.contains_signs.1 h
  · exact (takeable_kind Kind.noConfusion Kind.noConfusion hk).mono le_self_add le_self_add
  · exact (takeable_kind Kind.noConfusion Kind.noConfusion hk).mono le_add_self le_add_self

theorem takeable_literals {t : Token} (h : Grammar.literals.contains t.kind = true) :
    Takeable (Schema.one .number + Schema.one .infinity) Production.literal t := by
  obtain hk | hk := Grammar.contains_literals.1 h
  · exact (takeable_kind Kind.noConfusion Kind.noConfusion hk).mono le_self_add le_self_add
  · exact (takeable_kind Kind.noConfusion Kind.noConfusion hk).mono le_add_self le_add_self

theorem takeable_comparisons {t : Token} (h : Grammar.comparisons.contains t.kind = true) :
    Takeable (Schema.oneOf Grammar.comparisons) Production.comparison t := by
  have hk : t.kind = .lt ∨ t.kind = .ltEq ∨ t.kind = .gt ∨ t.kind = .gtEq ∨ t.kind = .eq := by
    rw [Grammar.contains_comparisons] at h
    exact Kind.isComparison_iff.1 h
  refine ⟨?_, ?_, mem_single.2 h, ?_⟩
  · rcases hk with hk | hk | hk | hk | hk <;> simp [hk]
  · rcases hk with hk | hk | hk | hk | hk <;> simp [hk]
  · simp only [Production.comparison, Language.mem_add, Production.one, mem_single]
    tauto

theorem runs_bump {A : Language Kind} {G : Language Token} (hP : ∀ i, P i → Takeable A G (i.peek 0)) :
    Runs P bump (fun _ => A) G fun _ _ => True :=
  .bump hP fun _ _ _ _ => trivial

theorem runs_comparison :
    Runs (fun i => P i ∧ At Grammar.comparisons i) bump
      (fun _ => Schema.oneOf Grammar.comparisons) Production.comparison fun _ _ => True :=
  runs_bump fun _ h => takeable_comparisons h.2

/-! ## Terms and constants -/

theorem runs_signs : Runs P (bumpWhile Grammar.signs)
    (fun _ => (Schema.one .plus + Schema.one .minus)∗) Production.sign∗ fun _ _ => True := by
  rw [bumpWhile_eq]
  refine (Runs.repeatWhile (I := fun _ => True) (progress_takeStep ?_) fun i hi _ => ?_).pre
    fun _ _ => trivial
  · exact fun k h => ne_eof_of_inline (inline_signs k h)
  · refine Runs.round_look (g := fun i => Grammar.signs.contains (i.peek 0).kind)
      (Runs.round_ite (fun h => ?_) fun _ => Runs.round_stop trivial)
    exact Runs.round_go (P := At Grammar.signs) (runs_bump fun i h => takeable_signs h) hi h

theorem runs_variableName (hP : ∀ i, P i → At Grammar.variableFirst i)
    (hQ : ∀ i j : Input, P i → (∀ m, j.peek m = i.peek (m + 1)) → Q j) :
    Runs P variableName (fun _ => Schema.name) (Production.one .ident) fun _ => Q := by
  refine .ifKind ?_ ?_
  · exact (Runs.invalidNumber (fun i h => h.2) fun i j h => hQ i j h.1).le (fun _ => le_add_self)
      zero_le
  · refine (Runs.bump (A := Schema.one .ident) (G := Production.one .ident) (fun i h => ?_)
      fun i j h => hQ i j h.1).le (fun _ => le_self_add) le_rfl
    obtain ⟨h, hne⟩ := h
    exact takeable_kind Kind.noConfusion Kind.noConfusion
      ((Grammar.contains_variableFirst.1 (hP i h)).resolve_right hne)

/-- The variable of a term. -/
theorem runs_termVariable : Runs P (atSet Grammar.variableFirst >>= fun b =>
    if b = true then variableName else missing .variableUse)
    (fun _ => optional Schema.name) (Production.one .ident) fun _ _ => True := by
  refine .ifAt ?_ ?_
  · exact (runs_variableName (fun i h => h.2) fun _ _ _ _ => trivial).le (fun _ => le_optional) le_rfl
  · exact ((Runs.missing _).le (fun _ => one_le_optional) zero_le).post fun _ _ _ => trivial

/-- The number and the variable of a term. -/
theorem runs_termTail {L : Language Token}
    (hlit : ∀ i, P i → At Grammar.literals i → [i.peek 0] ∈ L)
    (hno : ∀ i, P i → ¬ At Grammar.literals i → 1 ≤ L) :
    Runs P (atSet Grammar.literals >>= fun b => if b = true then bump >>= fun _ =>
        (atSet Grammar.variableFirst >>= fun b =>
          if b = true then variableName else missing .variableUse)
      else current >>= fun k => peek 1 >>= fun t =>
        if k = .invalidNumber ∧ Grammar.variableFirst.contains t.kind = true then
          invalidNumber >>= fun _ => (atSet Grammar.variableFirst >>= fun b =>
            if b = true then variableName else missing .variableUse)
        else atSet Grammar.variableFirst >>= fun b =>
            if b = true then variableName else missing .variableUse)
      (fun _ => optional (Schema.one .number + Schema.one .infinity + Schema.one .invalidNumber) *
        optional Schema.name) (L * Production.one .ident) fun _ _ => True := by
  refine .ifAt ?_ ?_
  · refine ((Runs.bump (A := Schema.one .number + Schema.one .infinity) (G := L) (fun i h => ?_)
      fun _ _ _ _ => trivial).bind fun _ => runs_termVariable).le (fun _ => ?_) le_rfl
    · obtain ⟨h₁, h₂, h₃, _⟩ := takeable_literals h.2
      exact ⟨h₁, h₂, h₃, hlit i h.1 h.2⟩
    · exact mul_le_mul_left (le_self_add.trans le_optional) _
  · refine .branch (c := AtBadNumber) ?_ ?_
    · refine ((Runs.invalidNumber (fun i h => h.2.1) fun _ _ _ _ => trivial).bind fun _ =>
        runs_termVariable).le (fun _ => ?_) ?_
      · exact mul_le_mul_left (le_add_self.trans le_optional) _
      · exact mul_le_mul_left zero_le _
    · intro i hi h
      have hL := hno i h.1.1 h.1.2
      refine (runs_termVariable (P := fun _ => True)).le (fun _ => le_optional_mul) ?_ i hi trivial
      exact (one_mul _).ge.trans (mul_le_mul_left hL _)

theorem le_children_term : (Schema.one .plus + Schema.one .minus)∗ *
    (optional (Schema.one .number + Schema.one .infinity + Schema.one .invalidNumber) *
      optional Schema.name) ≤ Schema.children .term := (mul_assoc _ _ _).ge

theorem runs_term :
    Runs (At Grammar.termFirst) term (fun _ => Schema.one .term) Production.term
      fun _ _ => True := by
  refine .node (stable_at _) (fun i h => ne_eof_of_inline (inline_termFirst _ h)) rfl
    Kind.noConfusion le_children_term ?_
  refine (runs_signs.bind fun _ => runs_termTail (L := optional Production.literal) ?_ ?_).le
    (fun _ => le_rfl) (mul_assoc _ _ _).ge
  · exact fun i _ h => le_optional (takeable_literals h).2.2.2
  · exact fun _ _ _ => one_le_optional

/-- A term that starts with a number of its own sign. -/
theorem runs_signedTerm :
    Runs (fun i => isSignedLiteral (i.peek 0) = true) term (fun _ => Schema.one .term)
      (Production.signedLiteral * Production.one .ident) fun _ _ => True := by
  have hat : ∀ i : Input, isSignedLiteral (i.peek 0) = true → At Grammar.literals i :=
    fun i h => (Bool.and_eq_true _ _ ▸ h : _ ∧ _).1
  have hsigns : ∀ i : Input, isSignedLiteral (i.peek 0) = true →
      bumpWhile Grammar.signs i = ⟨(), {}, i⟩ := by
    intro i h
    have hnot : ¬ At Grammar.signs i := Grammar.not_signs_of_literals (hat i h)
    have hstep : takeStep Grammar.signs i = ⟨false, {}, i⟩ := atSet_neg hnot
    rw [bumpWhile_eq, repeatWhile_neg (by simp [hstep]), hstep]
  have hnone : Runs (fun i => isSignedLiteral (i.peek 0) = true) (bumpWhile Grammar.signs)
      (fun _ => 1) 1 fun _ i => isSignedLiteral (i.peek 0) = true := by
    intro i _ h
    rw [hsigns i h]
    exact ⟨Shows.nil i, h⟩
  refine .node ?_ ?_ rfl Kind.noConfusion le_children_term ?_
  · exact fun i j hp _ h => by rwa [hp 0]
  · exact fun i h => ne_eof_of_inline (inline_literals _ (hat i h))
  · refine (hnone.bind fun _ => runs_termTail (L := Production.signedLiteral) ?_ ?_).le
      (fun _ => mul_le_mul_left one_le_kstar _) (one_mul _).le
    · intro i h hl
      refine mem_single.2 ⟨Grammar.contains_literals.1 hl, ?_⟩
      rw [isSignedLiteral, Bool.and_eq_true] at h
      cases hhead : (i.peek 0).text.head? with
      | none => simp [hhead] at h
      | some c => simpa [hhead, Number.isSign] using h.2
    · exact fun i h hl => absurd (hat i h) hl

/-- A constant that is there. -/
theorem runs_constantNode :
    Runs (At Grammar.constantFirst) constant (fun _ => Schema.one .constant) Production.constant
      fun _ _ => True := by
  refine .ifAt (.pre (P := At Grammar.constantFirst) ?_ fun i h => h.2)
    (.vacuous fun i h => h.2 h.1)
  refine .node (B := (Schema.one .plus + Schema.one .minus)∗ *
    optional (Schema.one .number + Schema.one .infinity + Schema.one .invalidNumber)) (stable_at _)
    (fun i h => ne_eof_of_inline (inline_constantFirst _ h)) rfl Kind.noConfusion le_rfl ?_
  refine runs_signs.bind fun _ => .ifAt ?_ (.ifKind ?_ ?_)
  · exact (runs_bump fun i h => takeable_literals h.2).le
      (fun _ => le_self_add.trans le_optional) le_rfl
  · exact (Runs.invalidNumber (fun i h => h.2) fun _ _ _ _ => trivial).le
      (fun _ => le_add_self.trans le_optional) zero_le
  · exact ((Runs.missing _).le (fun _ => one_le_optional) zero_le).post fun _ _ _ => trivial

theorem givesUp_constant :
    GivesUp P constant (Schema.one .constant) Schema.skipped Production.constant := by
  intro i hi _
  by_cases hat : At Grammar.constantFirst i
  · exact .inl (runs_constantNode i hi hat).1
  · rw [show constant i = recover .number i from atSet_neg hat]
    exact .inr (Runs.recover (P := fun _ => True) .number i hi trivial)

/-- A constant in its place, or the rest of the statement skipped. -/
theorem givesUp_comparison {e : Expected} :
    GivesUp P (atSet Grammar.comparisons >>= fun b =>
        if b = true then bump >>= fun _ => constant else recover e)
      (Schema.oneOf Grammar.comparisons * Schema.one .constant)
      (Schema.oneOf Grammar.comparisons * Schema.skipped + Schema.skipped)
      (Production.comparison * Production.constant) := by
  refine .ifAt ?_ ?_
  · exact (GivesUp.bind runs_comparison givesUp_constant).weaken (fun _ h => h) le_rfl le_self_add
      le_rfl
  · exact (GivesUp.recover _).weaken (fun _ h => h) le_rfl le_add_self le_rfl

theorem comparison_skipped_le :
    Schema.oneOf Grammar.comparisons * Schema.one .constant * Schema.skipped ≤
        optional Schema.comparison * Schema.skipped ∧
      Schema.oneOf Grammar.comparisons * Schema.skipped + Schema.skipped ≤
        optional Schema.comparison * Schema.skipped := by
  have hcomparison : Schema.oneOf Grammar.comparisons * Schema.one .constant ≤ Schema.comparison :=
    mul_le_mul_right le_optional _
  have hbare : Schema.oneOf Grammar.comparisons ≤ Schema.comparison :=
    (mul_one _).ge.trans (mul_le_mul_right one_le_optional _)
  refine ⟨mul_le_mul_left (hcomparison.trans le_optional) _, add_le ?_ le_optional_mul⟩
  exact mul_le_mul_left (hbare.trans le_optional) _

/-! ## Expressions -/

theorem runs_bumpTimes (l : Nat) :
    Runs (fun i => ∀ m < l, (i.peek m).kind = .newline) (bumpTimes l)
      (fun _ => (Schema.one .newline)∗) (Production.one .newline)∗ fun _ _ => True := by
  induction l with
  | zero => exact (Runs.pure fun _ _ => trivial).le (fun _ => one_le_kstar) one_le_kstar
  | succ l ih =>
    refine (Runs.bind (.bump (A := Schema.one .newline) (G := Production.one .newline) ?_ ?_)
      fun _ => ih).le (fun _ => mul_kstar_le_kstar) mul_kstar_le_kstar
    · exact fun i h => takeable_kind Kind.noConfusion Kind.noConfusion (h 0 (Nat.succ_pos l))
    · intro i j h hp m hm
      rw [hp m]
      exact h (m + 1) (Nat.succ_lt_succ hm)

theorem runs_continueLine :
    Runs P continueLine (fun _ => (Schema.one .newline)∗) (Production.one .newline)∗
      fun _ _ => True := by
  rw [continueLine_eq]
  refine .look fun a => .ite (fun _ => ?_) fun _ => ?_
  · refine (runs_bumpTimes a.1).pre ?_
    rintro i ⟨_, rfl⟩
    exact kind_nth_newlineRun i.eof i.tokens
  · exact (Runs.pure fun _ _ => trivial).le (fun _ => one_le_kstar) one_le_kstar

theorem runs_flatOperand :
    Runs P flatOperand (fun _ => (Schema.one .newline)∗ * ((Schema.one .errorNode)∗ *
      optional (Schema.one .term))) ((Production.one .newline)∗ * Production.term)
      fun _ _ => True := by
  have hjunk : Runs (fun _ => True) (repeatWhile junkStep) (fun _ => (Schema.one .errorNode)∗) 1
      fun _ _ => True := by
    refine (Runs.repeatWhile (G := 0) progress_junkStep fun i hi _ => ?_).le (fun _ => le_rfl)
      kstar_zero.le
    refine Runs.round_look (g := fun i => Grammar.junk.contains (i.peek 0).kind)
      (Runs.round_ite (fun h => ?_) fun _ => Runs.round_stop trivial)
    refine Runs.round_go (P := At Grammar.junk) (Runs.skipToken _ fun i h => ?_) hi h
    exact ne_eof_of_inline (inline_junk _ h)
  refine (runs_continueLine.bind fun _ => hjunk.bind fun _ => Runs.ifAt (G := Production.term)
    (A := fun _ => optional (Schema.one .term)) ?_ ?_).le (fun _ => le_rfl) ?_
  · exact (runs_term.pre fun i h => h.2).le (fun _ => le_optional) le_rfl
  · exact ((Runs.missing _).le (fun _ => one_le_optional) zero_le).post fun _ _ _ => trivial
  · rw [one_mul]

/-- What follows the first term of an expression, by kinds. -/
def Schema.more : Language Kind :=
  (Schema.one .plus + Schema.one .minus) * (Schema.one .newline)∗ * (Schema.one .errorNode)∗ *
    optional (Schema.one .term) + Schema.one .term + Schema.one .errorNode

theorem runs_expressionSteps :
    Runs P (repeatWhile expressionStep) (fun _ => Schema.more∗)
      (Production.sign * (Production.one .newline)∗ * Production.term +
        Production.signedLiteral * Production.one .ident)∗ fun _ _ => True := by
  refine (Runs.repeatWhile (I := fun _ => True) (Q := fun _ => True) progress_expressionStep
    fun i hi _ => ?_).pre fun _ _ => trivial
  rw [expressionStep_eq]
  refine Runs.round_look (g := fun i => i.peek 0) (Runs.round_ite (fun h => ?_) fun _ =>
    Runs.round_ite (fun h => ?_) fun _ => Runs.round_ite (fun h => ?_) fun _ =>
      Runs.round_stop trivial)
  · have hrule : (bump >>= fun _ => flatOperand >>= fun _ => (pure true : Rule Bool)) =
        (bump >>= fun _ => flatOperand) >>= fun _ => pure true := (bind_assoc _ _ _).symm
    rw [hrule]
    refine Runs.round_go (P := fun i => (Grammar.operator? (i.peek 0).kind).isSome = true)
      (((runs_bump fun i h => takeable_signs ?_).bind fun _ => runs_flatOperand).le (fun _ => ?_) ?_)
      hi h
    · rwa [Grammar.isSome_operator?] at h
    · simp only [Schema.more, mul_assoc, add_assoc]
      exact le_self_add
    · rw [← mul_assoc]
      exact le_self_add
  · exact Runs.round_go (runs_signedTerm.le (fun _ => le_add_self.trans le_self_add) le_add_self) hi h
  · refine Runs.round_go (P := At Grammar.junk)
      ((Runs.skipToken _ fun i h => ?_).le (fun _ => le_add_self) zero_le) hi h
    exact ne_eof_of_inline (inline_junk _ h)

/-- An expression, if one comes next, and what follows it. -/
theorem runs_expression {α : Type} {f : Bool → Rule α} {B C : α → Language Kind}
    {H K : Language Token} {R : α → Input → Prop} (htrue : Runs (fun _ => True) (f true) B H R)
    (hfalse : Runs (fun i => P i ∧ ¬ At Grammar.termFirst i) (f false) C K R) :
    Runs P (expression >>= f) (fun a => Schema.one .expression * B a + C a)
      (Production.expression * H + K) R := by
  have hnode : Runs (At Grammar.termFirst) (node .expression (term >>= fun _ =>
      repeatWhile expressionStep)) (fun _ => Schema.one .expression) Production.expression
      fun _ _ => True :=
    .node (stable_at _) (fun i h => ne_eof_of_inline (inline_termFirst _ h)) rfl Kind.noConfusion
      le_rfl (runs_term.bind fun _ => runs_expressionSteps)
  intro i hi hPi
  by_cases hat : At Grammar.termFirst i
  · have hrun : expression i = (node .expression (term >>= fun _ => repeatWhile expressionStep) >>=
        fun _ => (pure true : Rule Bool)) i := atSet_pos hat
    have hseq : (expression >>= f) i = (node .expression (term >>= fun _ =>
        repeatWhile expressionStep) >>= fun _ => f true) i := by
      rw [bind_run, hrun, bind_pure_run, bind_run]
    rw [hseq]
    obtain ⟨hs, hR⟩ := hnode.bind (fun _ => htrue) i hi hat
    exact ⟨hs.mono le_self_add le_self_add, hR⟩
  · have hrun : expression i = (pure false : Rule Bool) i := atSet_neg hat
    have hseq : (expression >>= f) i = f false i := by
      rw [bind_run, hrun]
      rfl
    rw [hseq]
    obtain ⟨hs, hR⟩ := hfalse i hi ⟨hPi, hat⟩
    exact ⟨hs.mono le_add_self le_add_self, hR⟩

theorem label_pos {separators : KindSet} {i : Input} (h : AtLabel separators i) :
    label separators i = node .label (bump >>= fun _ => bump) i := by
  change (if AtLabel separators i then node .label (bump >>= fun _ => bump) else pure ()) i = _
  rw [if_pos h]

theorem label_neg {separators : KindSet} {i : Input} (h : ¬ AtLabel separators i) :
    label separators i = (pure () : Rule Unit) i := by
  change (if AtLabel separators i then node .label (bump >>= fun _ => bump) else pure ()) i = _
  rw [if_neg h]

/-- A label, if one comes next, and what follows it. -/
theorem runs_label {α : Type} {separators : KindSet} {L : Language Token} {q : Rule α}
    {B C : α → Language Kind} {H K : Language Token} {R : α → Input → Prop}
    (hs : ∀ t : Token, separators.contains t.kind = true →
      Takeable (Schema.one .colon + Schema.one .colon2) L t)
    (hlabel : Runs (fun _ => True) q B H R)
    (hnone : Runs (fun i => P i ∧ ¬ AtLabel separators i) q C K R) :
    Runs P (label separators >>= fun _ => q) (fun a => Schema.one .label * B a + C a)
      (Production.one .ident * L * H + K) R := by
  have hnode : Runs (AtLabel separators) (node .label (bump >>= fun _ => bump))
      (fun _ => Schema.one .label) (Production.one .ident * L) fun _ _ => True := by
    refine .node (stable_atLabel _) (fun i => ne_eof_of_atLabel) rfl Kind.noConfusion le_rfl
      ((Runs.bump (Q := fun i => separators.contains (i.peek 0).kind = true) (fun i h =>
        takeable_kind Kind.noConfusion Kind.noConfusion h.1) fun i j h hp => ?_).bind fun _ =>
        runs_bump fun i h => hs _ h)
    rw [hp 0]
    exact h.2
  intro i hi hPi
  by_cases hat : AtLabel separators i
  · have hseq : (label separators >>= fun _ => q) i =
        (node .label (bump >>= fun _ => bump) >>= fun _ => q) i := by
      rw [bind_run, label_pos hat, bind_run]
    rw [hseq]
    obtain ⟨hs, hR⟩ := hnode.bind (fun _ => hlabel) i hi hat
    exact ⟨hs.mono le_self_add le_self_add, hR⟩
  · have hseq : (label separators >>= fun _ => q) i = q i := by
      rw [bind_run, label_neg hat]
      rfl
    rw [hseq]
    obtain ⟨hs, hR⟩ := hnone i hi ⟨hPi, hat⟩
    exact ⟨hs.mono le_add_self le_add_self, hR⟩

/-! ## Objectives and constraints -/

theorem takeable_colon {t : Token} (h : colon.contains t.kind = true) :
    Takeable (Schema.one .colon + Schema.one .colon2) (Production.one .colon) t := by
  exact (takeable_kind Kind.noConfusion Kind.noConfusion (KindSet.contains_singleton.1 h)).mono
    le_self_add le_rfl

theorem takeable_labelSeparators {t : Token} (h : labelSeparators.contains t.kind = true) :
    Takeable (Schema.one .colon + Schema.one .colon2)
      (Production.one .colon + Production.one .colon2) t := by
  have hk := contains_labelSeparators.1 h
  rcases hk with hk | hk
  · exact (takeable_kind Kind.noConfusion Kind.noConfusion hk).mono le_self_add le_self_add
  · exact (takeable_kind Kind.noConfusion Kind.noConfusion hk).mono le_add_self le_add_self

/-- A statement that may begin with a label and an expression. -/
theorem runs_labelled {α : Type} {separators : KindSet} {L : Language Token} {f : Bool → Rule α}
    {T : α → Language Kind} {H K : Language Token} {R : α → Input → Prop}
    (hs : ∀ t : Token, separators.contains t.kind = true →
      Takeable (Schema.one .colon + Schema.one .colon2) L t)
    (htrue : Runs (fun _ => True) (f true) T H R)
    (hfalse : Runs (fun i => ¬ At Grammar.termFirst i) (f false) T K R) :
    Runs (At Grammar.termFirst) (label separators >>= fun _ => expression >>= f)
      (fun a => optional (Schema.one .label) * optional (Schema.one .expression) * T a)
      (Production.one .ident * L * (Production.expression * H + K) +
        Production.expression * H) R := by
  have hnone : Runs (fun i => At Grammar.termFirst i ∧ ¬ AtLabel separators i) (expression >>= f)
      (fun a => Schema.one .expression * T a + T a) (Production.expression * H + 0) R :=
    runs_expression htrue (.vacuous fun i h => h.2 h.1.1)
  refine (runs_label hs (runs_expression htrue (hfalse.pre fun i h => h.2)) hnone).le (fun a => ?_) ?_
  · rw [mul_assoc, optional_mul, optional_mul]
  · rw [add_zero]

/-- The end of a statement in which a comparison is next. -/
theorem runs_comparisonTail :
    Runs P (comparisonTail >>= fun _ => endOfStatement)
      (fun _ => optional Schema.comparison * Schema.skipped)
      (Production.comparison * Production.constant) fun _ => At Grammar.statementEnd :=
  (givesUp_comparison (e := .comparison)).ended comparison_skipped_le.1 comparison_skipped_le.2

theorem runs_skipped (e : Expected) :
    Runs P (recover e >>= fun _ => endOfStatement) (fun _ => Schema.skipped) 0
      fun _ => At Grammar.statementEnd :=
  (GivesUp.recover (A := 0) (G := 0) e).ended ((zero_mul Schema.skipped).le.trans zero_le) le_rfl

/-- A rule and then an answer. -/
theorem Runs.answer {α : Type} {p : Rule Unit} {k : α} {A : Language Kind} {T : α → Language Kind}
    {G : Language Token} {R : α → Input → Prop} (h : Runs P p (fun _ => A) G fun _ => Q)
    (hA : A ≤ T k) (hR : ∀ j, Q j → R k j) : Runs P (p >>= fun _ => Pure.pure k) T G R := by
  intro i hi hP
  obtain ⟨hs, hq⟩ := h i hi hP
  rw [bind_pure_run]
  exact ⟨hs.mono hA le_rfl, hR _ hq⟩

/-- What follows the expression of a statement before any section, by the kind it turns out to
have. -/
def implicitTail (k : Kind) : Language Kind :=
  if k = .constraint then optional Schema.comparison * Schema.skipped else Schema.skipped

/-- A statement before any section ends as an objective or as a constraint. -/
def ImplicitEnd (k : Kind) (j : Input) : Prop :=
  (k = .objective ∨ k = .constraint) ∧ At Grammar.statementEnd j

/-- What a statement before any section does after its expression. -/
def afterImplicit (found : Bool) : Rule Kind := do
  if ← atSet Grammar.comparisons then
    if found then pure () else missing .expression
    comparisonTail
    endOfStatement
    return .constraint
  else
    if found ∨ (← atStatementEnd) then pure () else recover .expression
    endOfStatement
    return .objective

theorem implicit_eq : implicit =
    nodeOf (label labelSeparators >>= fun _ => expression >>= afterImplicit) := rfl

theorem runs_afterImplicit (found : Bool) :
    Runs P (afterImplicit found) implicitTail
      (if found = true then optional (Production.comparison * Production.constant) else 1)
      ImplicitEnd := by
  have hconstraint : ∀ {P : Input → Prop}, Runs P (comparisonTail >>= fun _ => endOfStatement >>=
      fun _ => (pure .constraint : Rule Kind)) implicitTail
      (Production.comparison * Production.constant) ImplicitEnd := by
    intro P
    rw [← bind_assoc]
    exact runs_comparisonTail.answer (T := implicitTail) le_rfl fun j h => ⟨.inr rfl, h⟩
  have hend : ∀ {P : Input → Prop}, Runs P (endOfStatement >>= fun _ =>
      (pure .objective : Rule Kind)) implicitTail 1 ImplicitEnd :=
    runs_endOfStatement.answer le_rfl fun j h => ⟨.inl rfl, h⟩
  have hskipped : ∀ {P : Input → Prop}, Runs P (recover .expression >>= fun _ => endOfStatement >>=
      fun _ => (pure .objective : Rule Kind)) implicitTail 0 ImplicitEnd := by
    intro P
    rw [← bind_assoc]
    exact (runs_skipped _).answer (T := implicitTail) le_rfl fun j h => ⟨.inl rfl, h⟩
  cases found with
  | true =>
    refine .ifAt (hconstraint.le (fun _ => le_rfl) le_optional) ?_
    refine Runs.look (g := fun i => Grammar.statementEnd.contains (i.peek 0).kind) fun b => ?_
    exact .ite (fun _ => hend.le (fun _ => le_rfl) one_le_optional) fun h => absurd (.inl rfl) h
  | false =>
    refine .ifAt ?_ ?_
    · exact ((Runs.missing _).bind fun _ => hconstraint).le (fun _ => (one_mul _).le)
        ((zero_mul _).le.trans zero_le)
    · refine Runs.look (g := fun i => Grammar.statementEnd.contains (i.peek 0).kind) fun b => ?_
      exact .ite (fun _ => hend) fun _ => hskipped.le (fun _ => le_rfl) zero_le

/-- A label alone, or an expression with or without one. -/
theorem labelled_le {l e t : Language Token} :
    l * (e * t + 1) + e * t ≤ l + optional l * e * t := by
  rw [mul_add, mul_one, mul_assoc (optional l), optional_mul]
  refine add_le (add_le ?_ le_self_add) (le_add_self.trans le_add_self)
  exact le_self_add.trans le_add_self

theorem runs_implicit :
    Runs (At Grammar.termFirst) implicit
      (fun _ => Schema.one .objective + Schema.one .constraint) (Production.statement .implicit)
      fun _ => At Grammar.statementEnd := by
  rw [implicit_eq]
  have hbody : Runs (At Grammar.termFirst) _ _ (Production.statement .implicit) _ :=
    (runs_labelled (fun t => takeable_labelSeparators) (runs_afterImplicit true)
      (runs_afterImplicit false)).le (fun _ => le_rfl) labelled_le
  refine .nodeOf (stable_at _) (fun i h => ne_eof_of_inline (inline_termFirst _ h)) (hbody.post ?_)
  rintro k j ⟨rfl | rfl, h⟩
  · exact ⟨rfl, Kind.noConfusion, le_rfl, .inl (mem_single.2 rfl), h⟩
  · exact ⟨rfl, Kind.noConfusion, (mul_assoc _ _ _).ge, .inr (mem_single.2 rfl), h⟩

theorem runs_objective :
    Runs (At Grammar.termFirst) objective (fun _ => Schema.one .objective)
      (Production.statement .objective) fun _ => At Grammar.statementEnd := by
  refine .node (stable_at _) (fun i h => ne_eof_of_inline (inline_termFirst _ h)) rfl
    Kind.noConfusion le_rfl ((runs_labelled (fun t => takeable_colon)
      (T := fun _ => Schema.skipped) (H := 1) (K := 1) ?_ ?_).le (fun _ => le_rfl) ?_)
  · exact Runs.look (g := fun i => Grammar.statementEnd.contains (i.peek 0).kind) fun b =>
      .ite (fun _ => runs_endOfStatement) fun h => absurd (.inl rfl) h
  · exact Runs.look (g := fun i => Grammar.statementEnd.contains (i.peek 0).kind) fun b =>
      .ite (fun _ => runs_endOfStatement) fun h => (runs_skipped _).le (fun _ => le_rfl) zero_le
  · have h := labelled_le (l := Production.label) (e := Production.expression) (t := 1)
    rwa [mul_one (optional _ * _)] at h

theorem runs_constraint :
    Runs (At Grammar.termFirst) constraint (fun _ => Schema.one .constraint)
      (Production.statement .constraint) fun _ => At Grammar.statementEnd := by
  refine .node (stable_at _) (fun i h => ne_eof_of_inline (inline_termFirst _ h)) rfl
    Kind.noConfusion (mul_assoc _ _ _).ge ((runs_labelled (fun t => takeable_labelSeparators)
      (T := fun _ => optional Schema.comparison * Schema.skipped)
      (H := Production.comparison * Production.constant) (K := 0) ?_ ?_).le (fun _ => le_rfl) ?_)
  · exact Runs.look (g := fun i => Grammar.comparisons.contains (i.peek 0).kind) fun b =>
      .ite (fun _ => .ite (fun _ => runs_comparisonTail) fun h => absurd rfl h) fun h =>
        absurd (.inl rfl) h
  · refine Runs.look (g := fun i => Grammar.comparisons.contains (i.peek 0).kind) fun b =>
      .ite (fun _ => .ite (fun h => ?_) fun _ => ?_) fun _ => ?_
    · cases h
    · exact ((Runs.missing _).bind fun _ => runs_comparisonTail).le (fun _ => (one_mul _).le)
        (zero_mul _).le
    · exact (runs_skipped _).le (fun _ => le_optional_mul) le_rfl
  · rw [add_zero, Production.statement, mul_assoc (optional _ * _), mul_assoc (optional _),
      optional_mul]
    rfl

/-! ## Bounds and declarations -/

theorem givesUp_variableBound :
    GivesUp (At Grammar.variableFirst) variableBound
      (Schema.name * (Schema.one .freeKw +
        Schema.oneOf Grammar.comparisons * Schema.one .constant))
      (Schema.name * (Schema.oneOf Grammar.comparisons * Schema.skipped + Schema.skipped))
      (Production.one .ident * (Production.free + Production.comparison * Production.constant)) := by
  change GivesUp (At Grammar.variableFirst)
    ((fun i => ⟨(i.peek 1).isFree, {}, i⟩ : Rule Bool) >>= fun free => variableName >>= fun _ =>
      if free = true then bumpAs .freeKw
      else atSet Grammar.comparisons >>= fun b =>
        if b = true then bump >>= fun _ => constant else recover .freeOrComparison) _ _ _
  refine GivesUp.look fun free => GivesUp.bind
    (runs_variableName (Q := fun j => (j.peek 0).isFree = free) (fun i h => h.1) ?_)
    (.ite (fun hfree => .of_runs ?_) fun _ =>
      givesUp_comparison.weaken (fun _ h => h) le_add_self le_rfl le_add_self)
  · rintro i j ⟨_, rfl⟩ hp
    rw [hp 0]
  · refine (Runs.bumpAs (A := Schema.one .freeKw) (G := Production.free) rfl Kind.noConfusion ?_
      fun _ _ _ _ => trivial).le (fun _ => le_self_add) le_self_add
    intro i _ h
    rw [hfree, Token.isFree, Bool.and_eq_true, beq_iff_eq] at h
    refine ⟨by simp [h.1], mem_single.2 rfl, mem_single.2 ⟨h.1, ?_⟩⟩
    simpa [Grammar.isFree, Grammar.freeWords] using h.2

theorem givesUp_constantBound :
    GivesUp (At Grammar.constantFirst) constantBound
      (Schema.one .constant * (Schema.oneOf Grammar.comparisons * (Schema.name *
        (Schema.oneOf Grammar.comparisons * Schema.one .constant + 1))))
      (Schema.one .constant * (Schema.oneOf Grammar.comparisons * (Schema.name *
        (Schema.oneOf Grammar.comparisons * Schema.skipped) + Schema.skipped) + Schema.skipped))
      (Production.constant * (Production.comparison * (Production.one .ident *
        optional (Production.comparison * Production.constant)))) := by
  refine GivesUp.bind runs_constantNode (.ifAt ?_ ?_)
  · refine (GivesUp.bind runs_comparison (.ifAt ?_ ?_)).weaken (fun _ h => h) le_rfl le_self_add
      le_rfl
    · refine (GivesUp.bind (runs_variableName (Q := fun _ => True) (fun i h => h.2)
        fun _ _ _ _ => trivial) (.ifAt ?_ (.of_runs ?_))).weaken (fun _ h => h) le_rfl le_self_add
        le_rfl
      · exact (GivesUp.bind runs_comparison givesUp_constant).weaken (fun _ h => h) le_self_add
          le_rfl le_optional
      · exact (Runs.pure fun _ _ => trivial).le (fun _ => le_add_self) one_le_optional
    · exact (GivesUp.recover _).weaken (fun _ h => h) le_rfl le_add_self le_rfl
  · exact (GivesUp.recover _).weaken (fun _ h => h) le_rfl le_add_self le_rfl

theorem variableBound_le :
    Schema.name * (Schema.one .freeKw + Schema.oneOf Grammar.comparisons * Schema.one .constant) *
        Schema.skipped ≤ Schema.children .bound ∧
      Schema.name * (Schema.oneOf Grammar.comparisons * Schema.skipped + Schema.skipped) ≤
        Schema.children .bound := by
  obtain ⟨h₁, h₂⟩ := comparison_skipped_le
  constructor
  · rw [mul_add, add_mul]
    refine add_le (le_self_add.trans le_self_add) ?_
    rw [mul_assoc]
    refine (mul_le_mul_right h₁ _).trans ?_
    rw [← mul_assoc]
    exact le_add_self.trans le_self_add
  · refine (mul_le_mul_right h₂ _).trans ?_
    rw [← mul_assoc]
    exact le_add_self.trans le_self_add

theorem constantBound_le :
    Schema.one .constant * (Schema.oneOf Grammar.comparisons * (Schema.name *
        (Schema.oneOf Grammar.comparisons * Schema.one .constant + 1))) * Schema.skipped ≤
        Schema.children .bound ∧
      Schema.one .constant * (Schema.oneOf Grammar.comparisons * (Schema.name *
        (Schema.oneOf Grammar.comparisons * Schema.skipped) + Schema.skipped) + Schema.skipped) ≤
        Schema.children .bound := by
  obtain ⟨h₁, h₂⟩ := comparison_skipped_le
  have hcomparison : Schema.oneOf Grammar.comparisons * Schema.one .constant ≤ Schema.comparison :=
    mul_le_mul_right le_optional _
  have hinner : Schema.name * (Schema.oneOf Grammar.comparisons * Schema.one .constant + 1) ≤
      optional (Schema.name * optional Schema.comparison) :=
    (mul_le_mul_right (add_le (hcomparison.trans le_optional) one_le_optional) _).trans le_optional
  have hname : Schema.name * (Schema.oneOf Grammar.comparisons * Schema.skipped) + Schema.skipped ≤
      optional (Schema.name * optional Schema.comparison) * Schema.skipped := by
    refine add_le ?_ le_optional_mul
    refine (mul_le_mul_right (le_self_add.trans h₂) _).trans ?_
    rw [← mul_assoc]
    exact mul_le_optional_mul
  constructor
  · refine (mul_le_mul_left (mul_le_mul_right ((mul_le_mul_right hinner _).trans le_optional) _)
      _).trans le_add_self
  · refine (mul_le_mul_right (add_le ((mul_le_mul_right hname _).trans ?_) le_optional_mul)
      _).trans ((mul_assoc _ _ _).ge.trans le_add_self)
    rw [← mul_assoc]
    exact mul_le_optional_mul

theorem runs_bound :
    Runs (At Grammar.termFirst) bound (fun _ => Schema.one .bound) (Production.statement .bound)
      fun _ => At Grammar.statementEnd := by
  refine .node (stable_at _) (fun i h => ne_eof_of_inline (inline_termFirst _ h)) rfl
    Kind.noConfusion le_rfl (.ifAt ?_ ?_)
  · refine ((givesUp_variableBound.ended variableBound_le.1 variableBound_le.2).pre
      fun i h => h.2).le (fun _ => le_rfl) ?_
    rw [mul_add, ← mul_assoc]
    exact le_self_add
  · refine ((givesUp_constantBound.ended constantBound_le.1 constantBound_le.2).pre ?_).le
      (fun _ => le_rfl) ?_
    · rintro i ⟨ht, hv⟩
      exact Grammar.constantFirst_of_termFirst ht hv
    · rw [← mul_assoc, ← mul_assoc]
      exact le_add_self

theorem runs_declaration :
    Runs (At Grammar.variableFirst) declaration (fun _ => Schema.one .declaration)
      (Production.statement .declaration) fun _ => At Grammar.statementEnd := by
  have hname : Runs (At Grammar.variableFirst) variableName (fun _ => Schema.name)
      (Production.one .ident) fun _ _ => True :=
    runs_variableName (fun i h => h) fun _ _ _ _ => trivial
  have hround : ∀ i : Input, i.Proper → True → Runs.Round (fun _ => True) (fun _ => True)
      (Schema.name + Schema.one .errorNode) (Production.one .ident) declarationStep i := by
    intro i hi _
    refine Runs.round_look (g := fun i => (i.peek 0).kind) (Runs.round_ite (fun h => ?_) fun _ =>
      Runs.round_ite (fun h => ?_) fun _ => Runs.round_stop trivial)
    · exact Runs.round_go (hname.le (fun _ => le_self_add) le_rfl) hi h
    · refine Runs.round_go (P := At Grammar.junk)
        ((Runs.skipToken _ fun i h => ?_).le (fun _ => le_add_self) zero_le) hi h
      exact ne_eof_of_inline (inline_junk _ h)
  have hloop : Runs (At Grammar.variableFirst) (repeatWhile declarationStep)
      (fun _ => Schema.name * (Schema.name + Schema.one .errorNode)∗)
      (Production.one .ident * (Production.one .ident)∗) fun _ _ => True := by
    refine Runs.repeatWhile_first (I := fun _ => True) progress_declarationStep (fun i hi h => ?_)
      hround
    have hstep : declarationStep i = (variableName >>= fun _ => (pure true : Rule Bool)) i := by
      have hs : Grammar.variableFirst.contains (i.peek 0).kind = true := h
      change (if Grammar.variableFirst.contains (i.peek 0).kind = true then _ else _ : Rule Bool) i = _
      rw [if_pos hs]
    rw [hstep, bind_pure_run]
    exact ⟨rfl, hname i hi h⟩
  rw [declaration_eq]
  refine .node (stable_at _) (fun i h => ne_eof_of_inline (inline_variableFirst _ h)) rfl
    Kind.noConfusion ?_ ((hloop.bind fun _ => runs_endOfStatement).le (fun _ => le_rfl)
      (mul_one _).le)
  rw [mul_assoc]
  refine mul_le_mul_right ?_ _
  -- what was skipped at the end is one more round
  have hskipped : Schema.skipped ≤ (Schema.name + Schema.one .errorNode)∗ :=
    add_le one_le_kstar (le_add_self.trans le_kstar)
  exact (mul_le_mul_right hskipped _).trans (kstar_mul_kstar _).le

/-! ## SOS sets -/

theorem runs_sosEntry :
    Runs (AtLabel colon) sosEntry (fun _ => Schema.one .sosEntry) Production.entry
      fun _ _ => True := by
  refine .node (stable_atLabel _) (fun i => ne_eof_of_atLabel) rfl Kind.noConfusion ?_
    (((Runs.bump (Q := fun i => colon.contains (i.peek 0).kind = true) (fun i h =>
      takeable_kind Kind.noConfusion Kind.noConfusion h.1) fun i j h hp => ?_).bind fun _ =>
      (runs_bump (A := Schema.one .colon) (G := Production.one .colon) fun i h => ?_).bind fun _ =>
        givesUp_constant.runs).le (fun _ => le_rfl) (mul_assoc _ _ _).ge)
  · rw [← mul_assoc]
    refine mul_le_mul_right (add_le (le_self_add.trans le_optional) ?_) _
    exact add_le one_le_optional (le_add_self.trans le_optional)
  · rw [hp 0]
    exact h.2
  · exact takeable_kind Kind.noConfusion Kind.noConfusion (KindSet.contains_singleton.1 h)

theorem sosEntriesStep_run {i : Input} (h : AtLabel colon i) :
    sosEntriesStep i = (sosEntry >>= fun _ => (pure true : Rule Bool)) i := by
  have hs := (atLabel_colon_iff i).1 h
  change (if ((i.peek 0).kind == .ident && (i.peek 1).kind == .colon) = true then _ else _ :
    Rule Bool) i = _
  rw [if_pos hs]

theorem round_sosEntries {i : Input} (hi : i.Proper) :
    Runs.Round (fun _ => True) (fun _ => True) (Schema.one .sosEntry) Production.entry
      sosEntriesStep i := by
  refine Runs.round_look (g := fun i => (i.peek 0).kind == .ident && (i.peek 1).kind == .colon)
    (Runs.round_ite (fun h => ?_) fun _ => Runs.round_stop trivial)
  exact Runs.round_go runs_sosEntry hi ((atLabel_colon_iff i).2 h)

theorem runs_sosEntries :
    Runs P sosEntries (fun _ => (Schema.one .sosEntry)∗) Production.entry∗ fun _ _ => True :=
  (Runs.repeatWhile (I := fun _ => True) progress_sosEntriesStep
    fun _ hi _ => round_sosEntries hi).pre fun _ _ => trivial

/-- Entries where there is at least one. -/
theorem runs_sosEntries_first :
    Runs (AtLabel colon) sosEntries (fun _ => Schema.one .sosEntry * (Schema.one .sosEntry)∗)
      (Production.entry * Production.entry∗) fun _ _ => True := by
  have hfirst : ∀ i, i.Proper → AtLabel colon i → (sosEntriesStep i).value = true ∧
      Shows (Schema.one .sosEntry) Production.entry i (sosEntriesStep i).output
        (sosEntriesStep i).rest ∧ True := by
    intro i hi h
    have hrun : sosEntriesStep i = ⟨true, (sosEntry i).output, (sosEntry i).rest⟩ := by
      rw [sosEntriesStep_run h, bind_pure_run]
    obtain ⟨hs, _⟩ := runs_sosEntry i hi h
    rw [hrun]
    refine ⟨rfl, ?_, trivial⟩
    dsimp only at hs ⊢
    exact hs
  rw [sosEntries_eq]
  exact Runs.repeatWhile_first (I := fun _ => True) progress_sosEntriesStep hfirst
    fun _ hi _ => round_sosEntries hi

theorem runs_sosTail :
    Runs AtSosType (bumpAs .sosType >>= fun _ => bump >>= fun _ => sosEntries >>= fun _ =>
      endOfStatement)
      (fun _ => Schema.one .sosType * (Schema.one .colon2 * ((Schema.one .sosEntry)∗ *
        Schema.skipped)))
      (Production.sosType * (Production.one .colon2 * Production.entry∗))
      fun _ => At Grammar.statementEnd := by
  refine (Runs.bumpAs (A := Schema.one .sosType) (G := Production.sosType)
    (Q := fun j => (j.peek 0).kind = .colon2) rfl Kind.noConfusion ?_ ?_).bind fun _ =>
    (runs_bump fun i h => takeable_kind Kind.noConfusion Kind.noConfusion h).bind fun _ =>
      (runs_sosEntries.bind fun _ => runs_endOfStatement).le (fun _ => le_rfl) (mul_one _).le
  · rintro i _ ⟨h, _⟩
    obtain ⟨hk, ht⟩ := (isSosType_iff _).1 h
    refine ⟨by simp [hk], mem_single.2 rfl, mem_single.2 ⟨hk, ?_⟩⟩
    simpa [Grammar.isSosType, Grammar.sosTypes] using ht
  · rintro i j ⟨_, h⟩ hp
    rw [hp 0, h]

theorem runs_sosSet (labelled : Bool) :
    Runs (AtSosSet labelled) (sosSet labelled) (fun _ => Schema.one .sosSet)
      (optional Production.label * Production.sosType * Production.one .colon2 * Production.entry∗)
      fun _ => At Grammar.statementEnd := by
  have htokens : Production.sosType * (Production.one .colon2 * Production.entry∗) ≤
      optional Production.label * Production.sosType * Production.one .colon2 *
        Production.entry∗ := by
    rw [mul_assoc (optional _ * _), mul_assoc (optional _)]
    exact le_optional_mul
  have hkinds : optional (Schema.one .label) * (Schema.one .sosType * (Schema.one .colon2 *
      ((Schema.one .sosEntry)∗ * Schema.skipped))) = optional (Schema.one .label) *
      Schema.one .sosType * Schema.one .colon2 * (Schema.one .sosEntry)∗ * Schema.skipped := by
    simp only [mul_assoc]
  refine .node (stable_atSosSet _) (fun i => ne_eof_of_atSosSet) rfl Kind.noConfusion hkinds.le ?_
  cases labelled with
  | false => exact runs_sosTail.le (fun _ => le_optional_mul) htokens
  | true =>
    have hlabel : Runs (AtSosSet true) (label colon) (fun _ => optional (Schema.one .label))
        Production.label fun _ => AtSosType := by
      refine .weaken (P := AtSosSet true) (Q := fun _ => AtSosType) ?_ (fun _ h => h)
        (fun _ => le_optional) le_rfl fun _ _ h => h
      intro i hi h
      rw [label_pos h.1]
      refine Runs.node (stable_atSosSet true) (fun i => ne_eof_of_atSosSet) rfl Kind.noConfusion le_rfl
        ((Runs.bump (Q := fun j => colon.contains (j.peek 0).kind = true ∧
          isSosType (j.peek 1) = true ∧ (j.peek 2).kind = .colon2) (fun i h => takeable_kind
          Kind.noConfusion Kind.noConfusion h.1.1) ?_).bind fun _ => .bump
            (fun i h => takeable_colon h.1) ?_) i hi h
      · rintro i j ⟨⟨_, h₁⟩, h₂, h₃⟩ hp
        rw [hp 0, hp 1, hp 2]
        exact ⟨h₁, h₂, h₃⟩
      · rintro i j ⟨_, h₂, h₃⟩ hp
        rw [AtSosType, hp 0, hp 1]
        exact ⟨h₂, h₃⟩
    refine (hlabel.bind fun _ => runs_sosTail).le (fun _ => le_rfl) ?_
    rw [mul_assoc (optional _ * _), mul_assoc (optional _)]
    exact mul_le_optional_mul

theorem runs_sosItem :
    Runs (fun i => (i.peek 0).kind = .ident) sosItem (fun _ => Schema.lines (Schema.statements .sos))
      (Production.statement .sos) fun _ => At Grammar.statementEnd := by
  have hset : Schema.one .sosSet ≤ Schema.lines (Schema.statements .sos) :=
    (le_self_add.trans le_add_self).trans le_kstar
  have hentry : Schema.one .sosEntry ≤ Schema.lines (Schema.statements .sos) :=
    (le_add_self.trans le_add_self).trans le_kstar
  have hskipped : Schema.skipped ≤ Schema.lines (Schema.statements .sos) :=
    add_le one_le_kstar ((le_add_self.trans le_self_add).trans le_kstar)
  change Runs _ ((fun i => ⟨sosAhead i, {}, i⟩ : Rule (Bool × Bool)) >>= fun a =>
    if a.1 = true ∨ a.2 = true then sosSet a.1
    else atSosEntry >>= fun b => if b = true then sosEntries >>= fun _ => endOfStatement
      else recover .sosSetOrEntry) _ _ _
  refine .look fun a => .ite (fun ha => ?_) fun _ => ?_
  · refine ((runs_sosSet a.1).pre ?_).le (fun _ => hset) le_self_add
    rintro i ⟨hk, rfl⟩
    exact atSosSet_of_sosAhead hk ha
  · refine .look (g := fun i => (i.peek 0).kind == .ident && (i.peek 1).kind == .colon) fun b =>
      .ite (fun hb => ?_) fun _ => ?_
    · refine ((runs_sosEntries_first.bind fun _ => runs_endOfStatement).pre ?_).le (fun _ => ?_) ?_
      · rintro i ⟨_, rfl⟩
        exact (atLabel_colon_iff i).2 hb
      · have hall : ∀ {A B : Language Kind}, A ≤ Schema.lines (Schema.statements .sos) →
            B ≤ Schema.lines (Schema.statements .sos) →
            A * B ≤ Schema.lines (Schema.statements .sos) :=
          fun hA hB => (mul_le_mul' hA hB).trans (kstar_mul_kstar _).le
        refine hall (hall hentry ?_) hskipped
        exact (kstar_mono hentry).trans (kstar_idem _).le
      · rw [mul_one]
        exact le_add_self
    · exact (Runs.recover _).le (fun _ => hskipped) zero_le

/-! ## All statements -/

theorem runs_statementBody (rule : StatementRule) :
    Runs (At rule.first) (statementBody rule) (fun _ => Schema.lines (Schema.statements rule))
      (Production.statement rule) fun _ => At Grammar.statementEnd := by
  have hle : ∀ A : Language Kind, A ≤ Schema.lines A := fun A => le_add_self.trans le_kstar
  cases rule with
  | implicit => exact runs_implicit.le (fun _ => hle _) le_rfl
  | objective => exact runs_objective.le (fun _ => hle _) le_rfl
  | constraint => exact runs_constraint.le (fun _ => hle _) le_rfl
  | bound => exact runs_bound.le (fun _ => hle _) le_rfl
  | declaration => exact runs_declaration.le (fun _ => hle _) le_rfl
  | sos => exact runs_sosItem.pre fun i h => eq_ident_of_first h

/-- **A statement** leaves nodes of its section, error nodes included, and a word of its production if
nothing is wrong. -/
theorem runs_statement (rule : StatementRule) :
    Runs (fun i => ¬ At Grammar.statementEnd i) (statement rule)
      (fun _ => Schema.lines (Schema.statements rule)) (Production.statement rule)
      fun _ => At Grammar.statementEnd := by
  intro i hi hnot
  rw [statement_eq rule hi hnot]
  refine Runs.ifAt (P := fun _ => True) ((runs_statementBody rule).pre fun i h => h.2)
    ((Runs.recover _).le (fun _ => ?_) zero_le) i hi trivial
  exact add_le one_le_kstar ((le_add_self.trans le_self_add).trans le_kstar)

end LpFormat.Rule
