import LpFormat.Proofs.Parsing.Accept

/-!
# Words of the grammar are read without faults

Each rule accepts its production.

* `Rule.accepts_term`, `Rule.accepts_constant`, `Rule.accepts_expression`;
* **`Rule.accepts_statement`**: a statement of any rule;
* **`Rule.accepts_contents`**: a whole document.
-/

namespace LpFormat.Rule

open Computability

variable {F : List Token → Prop}

/-! ## Terms and constants -/

theorem first_sign : First (fun k => Grammar.signs.contains k = true) Production.sign F :=
  .add (.kind rfl) (.kind rfl)

theorem first_literal : First (fun k => Grammar.literals.contains k = true) Production.literal F :=
  .add (.kind rfl) (.kind rfl)

theorem first_comparison :
    First (fun k => Grammar.comparisons.contains k = true) Production.comparison F :=
  .add (.add (.add (.add (.kind rfl) (.kind rfl)) (.kind rfl)) (.kind rfl)) (.kind rfl)

/-- Languages whose words are single tokens. -/
theorem one_add_one (k l : Kind) : Production.one k + Production.one l =
    single fun t => t.kind = k ∨ t.kind = l := by
  ext w
  constructor
  · rintro (⟨t, ht, rfl⟩ | ⟨t, ht, rfl⟩)
    · exact ⟨t, .inl ht, rfl⟩
    · exact ⟨t, .inr ht, rfl⟩
  · rintro ⟨t, ht | ht, rfl⟩
    · exact .inl ⟨t, ht, rfl⟩
    · exact .inr ⟨t, ht, rfl⟩

theorem accepts_signBump : Accepts bump () Production.sign F := by
  rw [Production.sign, one_add_one]
  exact .bump

theorem accepts_literalBump : Accepts bump () Production.literal F := by
  rw [Production.literal, one_add_one]
  exact .bump

theorem accepts_comparisonBump : Accepts bump () Production.comparison F :=
  .add (.add (.add (.add .bump .bump) .bump) .bump) .bump

theorem sign_ne_nil {w : List Token} (h : w ∈ Production.sign) : w ≠ [] := by
  rw [Production.sign, one_add_one] at h
  obtain ⟨t, _, rfl⟩ := h
  exact List.cons_ne_nil _ _

theorem accepts_signs : Accepts (bumpWhile Grammar.signs) () Production.sign∗
    fun us => ¬ Grammar.signs.contains (nextKind us) = true := by
  rw [bumpWhile_eq]
  refine .repeatWhile ?_ (fun w => sign_ne_nil) ?_
  · exact .ifAt_pos first_sign (accepts_signBump.answer true)
  · exact .ifAt_neg (.one fun us h => h) .pure

theorem accepts_variableName : Accepts variableName () (Production.one .ident) F := by
  refine .branch_neg (c := fun i => (i.peek 0).kind = .invalidNumber) (fun i us h => ?_) .bump
  exact h.kind (.kind (S := fun k => k ≠ .invalidNumber) Kind.noConfusion)

theorem accepts_variableUse : Accepts (atSet Grammar.variableFirst >>= fun b =>
    if b = true then variableName else missing .variableUse) () (Production.one .ident) F :=
  .ifAt_pos (.kind rfl) accepts_variableName

/-- What follows the signs of a term. -/
theorem accepts_coefficient : Accepts (atSet Grammar.literals >>= fun b =>
    if b = true then bump >>= fun _ => atSet Grammar.variableFirst >>= fun b =>
      if b = true then variableName else missing .variableUse
    else current >>= fun k => peek 1 >>= fun t =>
      if k = .invalidNumber ∧ Grammar.variableFirst.contains t.kind = true then
        invalidNumber >>= fun _ => atSet Grammar.variableFirst >>= fun b =>
          if b = true then variableName else missing .variableUse
      else atSet Grammar.variableFirst >>= fun b =>
        if b = true then variableName else missing .variableUse) ()
    (optional Production.literal * Production.one .ident) F := by
  rw [optional_mul]
  refine .add ?_ ?_
  · exact .ifAt_pos first_literal.mul_left (accepts_literalBump.then_ accepts_variableUse)
  · refine .ifAt_neg (.kind Bool.noConfusion) ?_
    refine .branch_neg (c := fun i => (i.peek 0).kind = .invalidNumber ∧
      Grammar.variableFirst.contains (i.peek 1).kind = true) (fun i us h hc => ?_) accepts_variableUse
    exact h.kind (.kind (S := fun k => k ≠ .invalidNumber) Kind.noConfusion) hc.1

theorem first_coefficient {S : Kind → Prop} (hn : S .number) (hi : S .infinity) (hv : S .ident) :
    First S (optional Production.literal * Production.one .ident) F :=
  .optional_mul (.add (.kind hn) (.kind hi)) (.kind hv)

theorem accepts_term : Accepts term () Production.term F := by
  rw [Production.term, mul_assoc]
  refine .node (accepts_signs.bind accepts_coefficient fun w hw us hus => ?_)
  exact first_coefficient (S := fun k => ¬ Grammar.signs.contains k = true) Bool.noConfusion
    Bool.noConfusion Bool.noConfusion w hw us hus

theorem first_term {S : Kind → Prop} (hp : S .plus) (hm : S .minus) (hn : S .number)
    (hi : S .infinity) (hv : S .ident) : First S Production.term F := by
  rw [Production.term, mul_assoc]
  exact .kstar_mul (.add (.kind hp) (.kind hm)) (first_coefficient hn hi hv)

theorem first_constant {S : Kind → Prop} (hp : S .plus) (hm : S .minus) (hn : S .number)
    (hi : S .infinity) : First S Production.constant F :=
  .kstar_mul (.add (.kind hp) (.kind hm)) (.add (.kind hn) (.kind hi))

theorem accepts_constant : Accepts constant () Production.constant F := by
  refine .ifAt_pos (first_constant rfl rfl rfl rfl) (.node (accepts_signs.bind ?_ ?_))
  · exact .ifAt_pos first_literal accepts_literalBump
  · exact First.add (S := fun k => ¬ Grammar.signs.contains k = true) (.kind Bool.noConfusion)
      (.kind Bool.noConfusion)

/-! ## Expressions -/

/-- An expression can end here. -/
def Ends (us : List Token) : Prop :=
  Grammar.comparisons.contains (nextKind us) = true ∨ Grammar.statementEnd.contains (nextKind us) = true

theorem Ends.ne {us : List Token} (h : Ends us) : (Grammar.operator? (nextKind us)).isSome ≠ true ∧
    Grammar.literals.contains (nextKind us) ≠ true ∧ Grammar.junk.contains (nextKind us) ≠ true ∧
    labelSeparators.contains (nextKind us) ≠ true := by
  have hkind : ∀ k : Kind, Grammar.comparisons.contains k = true ∨
      Grammar.statementEnd.contains k = true → (Grammar.operator? k).isSome ≠ true ∧
        Grammar.literals.contains k ≠ true ∧ Grammar.junk.contains k ≠ true ∧
        labelSeparators.contains k ≠ true := by decide
  exact hkind _ h

theorem newlineRun_append {ns us : List Token} (h : ∀ t ∈ ns, t.kind = .newline)
    (hus : nextKind us ≠ .newline) (hplain : ∀ t ∈ us, t.kind.isTrivia = false) :
    Input.newlineRun (ns ++ us) = ns.length := by
  induction ns with
  | nil =>
    cases us with
    | nil => rfl
    | cons t us =>
      have ht := hplain t List.mem_cons_self
      have hk : t.kind ≠ .newline := hus
      rw [List.nil_append, Input.newlineRun, if_neg (by simp [ht]), if_neg hk]
      rfl
  | cons t ns ih =>
    obtain ⟨ht, hns⟩ := List.forall_mem_cons.1 h
    rw [List.cons_append, Input.newlineRun, if_neg (by simp [ht, Kind.isTrivia]), if_pos ht, ih hns,
      List.length_cons, Nat.add_comm]

theorem accepts_bumpTimes (n : Nat) :
    Accepts (bumpTimes n) () {w | w.length = n} F := by
  induction n with
  | zero =>
    rintro i us ⟨hi, ⟨w, hw, ht⟩, _⟩
    obtain rfl : w = [] := List.length_eq_zero_iff.1 hw
    exact ⟨rfl, rfl, hi, ht⟩
  | succ n ih =>
    refine (Accepts.then_ (l := single fun _ => True) .bump ih).weaken ?_ fun _ h => h
    intro w hw
    obtain ⟨t, v, rfl⟩ := List.exists_cons_of_ne_nil (List.length_pos_iff.1 (by rw [hw]; omega))
    exact Language.append_mem_mul (mem_single.2 trivial) (Nat.succ.inj hw)

/-- Blank lines before a term. -/
theorem accepts_continueLine : Accepts continueLine () (Production.one .newline)∗
    fun us => Grammar.termFirst.contains (nextKind us) = true := by
  rintro i us ⟨hi, ⟨w, hw, ht⟩, hus⟩
  have hnewlines : ∀ t ∈ w, t.kind = .newline :=
    kstar_le_every (single_le_every fun _ h => h) hw
  have hnext : nextKind us ≠ .newline := by
    intro h
    rw [h] at hus
    cases hus
  have hrun : Input.newlineRun i.tokens = w.length := by
    rw [ht]
    refine newlineRun_append hnewlines hnext fun t htus => hi.significant t ?_
    rw [ht]
    exact List.mem_append_right _ htus
  have hkind : (i.peek w.length).kind = nextKind us := by
    rw [hi.kind_peek_drop, ht, List.drop_left]
  have hline : continueLine i = if 0 < w.length ∧ (Grammar.termFirst.contains (nextKind us) = true ∨
      Grammar.junk.contains (nextKind us) = true) then bumpTimes w.length i else ⟨(), {}, i⟩ := by
    rw [← hkind, ← hrun]
    rfl
  rw [hline]
  split_ifs with hc
  · exact accepts_bumpTimes (F := fun _ => True) w.length i us ⟨hi, ⟨w, rfl, ht⟩, trivial⟩
  · have hw : w = [] := by
      by_contra hne
      exact hc ⟨List.length_pos_iff.2 hne, .inl hus⟩
    rw [hw] at ht
    exact ⟨rfl, rfl, hi, ht⟩

/-- A piece that an operator leads in. -/
theorem accepts_flatOperand :
    Accepts flatOperand () ((Production.one .newline)∗ * Production.term) F := by
  have hjunk : Accepts (repeatWhile junkStep) () 1 fun us =>
      ¬ Grammar.junk.contains (nextKind us) = true :=
    .loop_stop (.ifAt_neg (.one fun us h => h) .pure)
  have hterm : Accepts (atSet Grammar.termFirst >>= fun b => if b = true then term
      else missing .termAfterOperator) () Production.term F :=
    .ifAt_pos (first_term rfl rfl rfl rfl rfl) accepts_term
  have hrest : Accepts (repeatWhile junkStep >>= fun _ => atSet Grammar.termFirst >>= fun b =>
      if b = true then term else missing .termAfterOperator) () (1 * Production.term) F :=
    hjunk.bind hterm (first_term (S := fun k => ¬ Grammar.junk.contains k = true)
      Bool.noConfusion Bool.noConfusion Bool.noConfusion Bool.noConfusion Bool.noConfusion)
  refine accepts_continueLine.bind (hrest.weaken (one_mul _).ge fun _ h => h) ?_
  exact first_term (S := fun k => Grammar.termFirst.contains k = true) rfl rfl rfl rfl rfl

/-- What may follow the first term of an expression. -/
def pieces : Language Token :=
  Production.sign * (Production.one .newline)∗ * Production.term +
    Production.signedLiteral * Production.one .ident

theorem first_pieces {S : Kind → Prop} (hp : S .plus) (hm : S .minus) (hn : S .number)
    (hi : S .infinity) : First S pieces F := by
  refine .add ?_ ?_
  · rw [mul_assoc]
    exact (First.add (.kind hp) (.kind hm)).mul_left
  · refine First.mul_left (.single ?_)
    rintro t ⟨h | h, _⟩
    · exact h ▸ hn
    · exact h ▸ hi

theorem accepts_expressionStep : Accepts expressionStep true pieces fun _ => True := by
  refine .add ?_ ?_
  · rw [mul_assoc]
    intro i us hfit
    have hk : (Grammar.operator? (i.peek 0).kind).isSome = true :=
      hfit.kind (First.mul_left (.add (S := fun k => (Grammar.operator? k).isSome = true)
        (.kind rfl) (.kind rfl)))
    rw [expressionStep_run, if_pos hk]
    exact (accepts_signBump.then_ (accepts_flatOperand.answer true)) i us hfit
  · intro i us hfit
    obtain ⟨_, ⟨_, ⟨t, ⟨hk, hsign⟩, rfl⟩, _, ⟨v, hv, rfl⟩, rfl⟩, ht⟩ := hfit.exists_word
    have hpeek : i.peek 0 = t := hfit.plain.peek_zero ht
    have hop : ¬ (Grammar.operator? (i.peek 0).kind).isSome = true := by
      rw [hpeek]
      rw [Grammar.isSome_operator?]
      exact Grammar.not_signs_of_literals (Grammar.contains_literals.2 hk)
    have hsigned : isSignedLiteral (i.peek 0) = true := by
      rw [hpeek, isSignedLiteral, Bool.and_eq_true]
      constructor
      · exact Grammar.contains_literals.2 hk
      · rcases hsign with hs | hs <;> rw [hs] <;> rfl
    rw [expressionStep_run, if_neg hop, if_pos hsigned]
    refine accepts_term.answer true i us (hfit.mono ?_ fun _ h => h)
    rw [Production.term, mul_assoc]
    refine le_trans ?_ ((one_mul _).ge.trans (mul_le_mul' one_le_kstar le_rfl))
    refine mul_le_mul' (le_trans ?_ le_optional) le_rfl
    rintro w ⟨t, ⟨h | h, _⟩, rfl⟩
    · exact .inl ⟨t, h, rfl⟩
    · exact .inr ⟨t, h, rfl⟩

theorem pieces_ne_nil {w : List Token} (h : w ∈ pieces) : w ≠ [] := by
  rintro rfl
  exact (first_pieces (F := fun _ => True) (S := fun k => k ≠ .eof) Kind.noConfusion Kind.noConfusion
    Kind.noConfusion Kind.noConfusion) [] h [] trivial rfl

theorem accepts_expression : Accepts expression true Production.expression Ends := by
  have hstop : Accepts expressionStep false 1 Ends := by
    rintro i us ⟨hi, ⟨w, rfl, ht⟩, hus⟩
    obtain ⟨hop, hlit, hjunk, _⟩ := hus.ne
    have hkind : (i.peek 0).kind = nextKind us := by
      rw [hi.kind_peek, ht]
      rfl
    have hsigned : ¬ isSignedLiteral (i.peek 0) = true := by
      rw [isSignedLiteral, Bool.and_eq_true, hkind]
      exact fun h => hlit h.1
    rw [expressionStep_run, if_neg (hkind ▸ hop), if_neg hsigned, if_neg (hkind ▸ hjunk)]
    exact ⟨rfl, rfl, hi, ht⟩
  refine .ifAt_pos (First.mul_left (first_term rfl rfl rfl rfl rfl)) (.answer (.node ?_) true)
  exact accepts_term.then_ (.repeatWhile accepts_expressionStep (fun w => pieces_ne_nil) hstop)

/-! ## Statements -/

/-- A statement ends here. -/
def AtEnd (us : List Token) : Prop := Grammar.statementEnd.contains (nextKind us) = true

/-- No label is next. -/
def Unlabelled (us : List Token) : Prop :=
  nextKind us = .ident → ¬ labelSeparators.contains (nextKind (us.drop 1)) = true

theorem accepts_endOfStatement : Accepts endOfStatement () 1 AtEnd :=
  .ifAt_pos (.one fun _ h => h) .pure

/-- An expression does not look like a label. -/
theorem unlabelled_expression {w us : List Token} (hw : w ∈ Production.expression) (hus : Ends us) :
    Unlabelled (w ++ us) := by
  obtain ⟨_, ⟨_, ⟨s, hs, l, hl, rfl⟩, _, ⟨t, _, rfl⟩, rfl⟩, r, hr, rfl⟩ := hw
  intro hk
  cases s with
  | cons x s =>
    have hsign := kstar_le_every (p := fun t => t.kind ≠ .ident)
      (add_le (single_le_every fun t ht => ?_) (single_le_every fun t ht => ?_)) hs
    · exact absurd hk (hsign x List.mem_cons_self)
    · exact ht ▸ Kind.noConfusion
    · exact ht ▸ Kind.noConfusion
  | nil =>
    rcases hl with rfl | ⟨x, hx, rfl⟩ | ⟨x, hx, rfl⟩
    · exact First.kstar (S := fun k => ¬ labelSeparators.contains k = true) (F := Ends)
        (first_pieces Bool.noConfusion Bool.noConfusion Bool.noConfusion Bool.noConfusion)
        (fun us h => h.ne.2.2.2) r hr us hus
    · exact absurd (hx.symm.trans hk) Kind.noConfusion
    · exact absurd (hx.symm.trans hk) Kind.noConfusion

theorem accepts_label (s : KindSet) : Accepts (label s) ()
    (Production.one .ident * single fun t => s.contains t.kind = true) F := by
  refine .branch_pos (c := fun i => (i.peek 0).kind = .ident ∧ s.contains (i.peek 1).kind = true)
    (fun i us hfit => ?_) (.node (Accepts.bump.then_ .bump))
  obtain ⟨_, ⟨_, ⟨t, ht, rfl⟩, _, ⟨u, hu, rfl⟩, rfl⟩, htokens⟩ := hfit.exists_word
  rw [hfit.plain.kind_peek_drop, hfit.plain.kind_peek_drop, htokens]
  exact ⟨ht, hu⟩

theorem accepts_noLabel {s : KindSet}
    (hs : ∀ k, s.contains k = true → labelSeparators.contains k = true) :
    Accepts (label s) () 1 Unlabelled := by
  refine .branch_neg (c := fun i => (i.peek 0).kind = .ident ∧ s.contains (i.peek 1).kind = true)
    (fun i us hfit => ?_) .pure
  obtain ⟨w, rfl, htokens⟩ := hfit.exists_word
  rw [hfit.plain.kind_peek_drop, hfit.plain.kind_peek_drop, htokens]
  exact fun h => hfit.follow h.1 (hs _ h.2)

/-- A label that may be left out. -/
theorem accepts_labelled {β : Type} {s : KindSet} {p : Rule β} {b : β} {m : Language Token}
    (hs : ∀ k, s.contains k = true → labelSeparators.contains k = true) (hp : Accepts p b m F)
    (hm : ∀ w ∈ m, ∀ us, F us → Unlabelled (w ++ us)) :
    Accepts (label s >>= fun _ => p) b
      (optional (Production.one .ident * single fun t => s.contains t.kind = true) * m) F := by
  rw [optional_mul]
  refine .add ((accepts_label s).then_ hp) ?_
  exact ((accepts_noLabel hs).bind hp hm).weaken (one_mul _).ge fun _ h => h

theorem label_eq : Production.label =
    Production.one .ident * single fun t => colon.contains t.kind = true := by
  exact congrArg _ (congrArg single (funext fun t => propext KindSet.contains_singleton.symm))

theorem anyLabel_eq : Production.anyLabel =
    Production.one .ident * single fun t => labelSeparators.contains t.kind = true := by
  rw [Production.anyLabel, one_add_one]
  exact congrArg _ (congrArg single (funext fun t => propext contains_labelSeparators.symm))

theorem accepts_comparisonTail :
    Accepts comparisonTail () (Production.comparison * Production.constant) F :=
  .ifAt_pos first_comparison.mul_left (accepts_comparisonBump.then_ accepts_constant)

theorem AtEnd.ends {us : List Token} (h : AtEnd us) : Ends us := .inr h

theorem AtEnd.ne {us : List Token} (h : AtEnd us) :
    ¬ Grammar.comparisons.contains (nextKind us) = true ∧
      ¬ Grammar.termFirst.contains (nextKind us) = true ∧
      ¬ Grammar.variableFirst.contains (nextKind us) = true ∧
      ¬ Grammar.junk.contains (nextKind us) = true ∧ nextKind us ≠ .ident := by
  have hkind : ∀ k : Kind, Grammar.statementEnd.contains k = true →
      ¬ Grammar.comparisons.contains k = true ∧ ¬ Grammar.termFirst.contains k = true ∧
        ¬ Grammar.variableFirst.contains k = true ∧ ¬ Grammar.junk.contains k = true ∧
        k ≠ .ident := by decide
  exact hkind _ h

/-- Where a statement ends, there is no expression. -/
theorem accepts_noExpression : Accepts expression false 1 AtEnd :=
  .ifAt_neg (.one fun _ h => h.ne.2.1) .pure

theorem colon_le (k : Kind) (h : colon.contains k = true) : labelSeparators.contains k = true := by
  exact contains_labelSeparators.2 (.inl (KindSet.contains_singleton.1 h))

/-- A comparison with what follows it ends an expression. -/
theorem ends_comparison {w us : List Token} (hw : w ∈ Production.comparison * Production.constant) :
    Ends (w ++ us) :=
  .inl (First.mul_left (S := fun k => Grammar.comparisons.contains k = true) (F := fun _ => True)
    first_comparison w hw us trivial)

theorem unlabelled_mul {l : Language Token} (h : ∀ w ∈ l, ∀ us, AtEnd us → Ends (w ++ us)) :
    ∀ w ∈ Production.expression * l, ∀ us, AtEnd us → Unlabelled (w ++ us) := by
  rintro _ ⟨u, hu, v, hv, rfl⟩ us hus
  change Unlabelled (u ++ v ++ us)
  rw [List.append_assoc]
  exact unlabelled_expression hu (h v hv us hus)

theorem accepts_implicit : Accepts implicit () (Production.statement .implicit) AtEnd := by
  have hend : Accepts (endOfStatement >>= fun _ => (pure Kind.objective : Rule Kind)) .objective 1
      AtEnd := accepts_endOfStatement.answer _
  have hobjective : ∀ found, Accepts (afterImplicit found) .objective 1 AtEnd := by
    intro found
    refine .ifAt_neg (.one fun _ h => h.ne.1) ?_
    refine .branch_pos (c := fun i => found = true ∨
      Grammar.statementEnd.contains (i.peek 0).kind = true) (fun i us hfit => .inr ?_) hend
    exact hfit.kind (.one (S := fun k => Grammar.statementEnd.contains k = true) fun _ h => h)
  have hconstraint : Accepts (afterImplicit true) .constraint
      (Production.comparison * Production.constant) AtEnd := by
    refine .ifAt_pos first_comparison.mul_left ?_
    have htail := accepts_comparisonTail.then_ (f := fun _ => endOfStatement >>= fun _ =>
      (pure Kind.constraint : Rule Kind)) (accepts_endOfStatement.answer Kind.constraint)
    exact htail.weaken (mul_one _).ge fun _ h => h
  rw [implicit_eq, Production.statement, anyLabel_eq]
  refine .add ?_ ?_
  · have hnone := accepts_noExpression.bind (f := afterImplicit) (hobjective false) ?_
    · refine .nodeOf (k := .objective) (((accepts_label _).then_ hnone).weaken ?_ fun _ h => h)
      rw [mul_one, mul_one]
    · rintro w rfl us hus
      exact hus
  · rw [mul_assoc, show optional (Production.comparison * Production.constant) =
      1 + Production.comparison * Production.constant from rfl, mul_add, mul_add]
    refine .add ?_ ?_
    · refine .nodeOf (k := .objective) (accepts_labelled (fun _ h => h) ?_ (unlabelled_mul ?_))
      · exact accepts_expression.bind (hobjective true) fun w hw us hus => by
          obtain rfl := hw
          exact hus.ends
      · rintro w rfl us hus
        exact hus.ends
    · refine .nodeOf (k := .constraint) (accepts_labelled (fun _ h => h) ?_ (unlabelled_mul ?_))
      · exact accepts_expression.bind hconstraint fun w hw us _ => ends_comparison hw
      · exact fun w hw us _ => ends_comparison hw

theorem accepts_objective : Accepts objective () (Production.statement .objective) AtEnd := by
  have hafter : ∀ found : Bool, Accepts (atSet Grammar.statementEnd >>= fun b =>
      if found = true ∨ b = true then endOfStatement
      else recover .objectiveExpression >>= fun _ => endOfStatement) () 1 AtEnd := by
    intro found
    refine .branch_pos (c := fun i => found = true ∨
      Grammar.statementEnd.contains (i.peek 0).kind = true) (fun i us hfit => .inr ?_)
      accepts_endOfStatement
    exact hfit.kind (.one (S := fun k => Grammar.statementEnd.contains k = true) fun _ h => h)
  rw [Production.statement, label_eq]
  refine .node (.add ?_ ?_)
  · have hnone := accepts_noExpression.bind (f := fun found => atSet Grammar.statementEnd >>= fun b =>
      if found = true ∨ b = true then endOfStatement
      else recover .objectiveExpression >>= fun _ => endOfStatement) (hafter false) ?_
    · refine ((accepts_label colon).then_ hnone).weaken ?_ fun _ h => h
      rw [mul_one, mul_one]
    · rintro w rfl us hus
      exact hus
  · have hsome := accepts_expression.bind (f := fun found => atSet Grammar.statementEnd >>= fun b =>
      if found = true ∨ b = true then endOfStatement
      else recover .objectiveExpression >>= fun _ => endOfStatement) (hafter true) ?_
    · refine (accepts_labelled colon_le hsome (unlabelled_mul ?_)).weaken ?_ fun _ h => h
      · rintro w rfl us hus
        exact hus.ends
      · rw [mul_one]
    · rintro w rfl us hus
      exact hus.ends

theorem accepts_constraint : Accepts constraint () (Production.statement .constraint) AtEnd := by
  have hafter : ∀ found : Bool, found = true → Accepts (atSet Grammar.comparisons >>= fun b =>
      if found = true ∨ b = true then
        (if found = true then comparisonTail >>= fun _ => endOfStatement
          else missing .expression >>= fun _ => comparisonTail >>= fun _ => endOfStatement)
      else recover .expression >>= fun _ => endOfStatement) ()
      (Production.comparison * Production.constant) AtEnd := by
    intro found hfound
    refine .branch_pos (c := fun i => found = true ∨
      Grammar.comparisons.contains (i.peek 0).kind = true) (fun i us _ => .inl hfound) ?_
    rw [if_pos hfound]
    exact (accepts_comparisonTail.then_ accepts_endOfStatement).weaken (mul_one _).ge fun _ h => h
  rw [Production.statement, anyLabel_eq, mul_assoc, mul_assoc]
  refine .node (accepts_labelled (fun _ h => h) ?_ (unlabelled_mul fun w hw us _ =>
    ends_comparison hw))
  exact accepts_expression.bind (hafter true rfl) fun w hw us _ => ends_comparison hw

/-! ### Bounds and declarations -/

theorem accepts_variableBound : Accepts variableBound ()
    (Production.one .ident * Production.free +
      Production.one .ident * Production.comparison * Production.constant) F := by
  refine .add (fun i us hfit => ?_) fun i us hfit => ?_
  · obtain ⟨_, ⟨_, ⟨t, ht, rfl⟩, _, ⟨u, ⟨hk, hu⟩, rfl⟩, rfl⟩, htokens⟩ := hfit.exists_word
    have hpeek : i.peek 1 = u := by
      rw [hfit.plain.peek_succ htokens, (hfit.plain.advance htokens).peek_zero rfl]
    have hfree : ((i.peek 1).kind == .ident && Grammar.isFree (i.peek 1).text) = true := by
      rw [hpeek, hk, Grammar.isFree, Grammar.freeWords]
      simpa using hu
    have hrun : variableBound i = (variableName >>= fun _ => bumpAs .freeKw) i := by
      change (variableName >>= fun _ => if ((i.peek 1).kind == .ident &&
        Grammar.isFree (i.peek 1).text) = true then bumpAs .freeKw else _ : Rule Unit) i = _
      rw [if_pos hfree]
    rw [hrun]
    exact (accepts_variableName.then_ (.bumpAs _)) i us hfit
  · have hnot : ¬ ((i.peek 1).kind == .ident && Grammar.isFree (i.peek 1).text) = true := by
      obtain ⟨_, ⟨_, ⟨_, ⟨t, ht, rfl⟩, c, hc, rfl⟩, v, hv, rfl⟩, htokens⟩ := hfit.exists_word
      have hkind : (i.peek 1).kind = nextKind (c ++ (v ++ us)) := by
        rw [hfit.plain.kind_peek_drop, htokens]
        simp
      have hcmp := first_comparison (F := fun _ => True) c hc (v ++ us) trivial
      rw [← hkind] at hcmp
      intro h
      rw [Bool.and_eq_true, beq_iff_eq] at h
      rw [h.1] at hcmp
      cases hcmp
    have hrun : variableBound i = (variableName >>= fun _ => atSet Grammar.comparisons >>= fun b =>
        if b = true then bump >>= fun _ => constant else recover .freeOrComparison) i := by
      change (variableName >>= fun _ => if ((i.peek 1).kind == .ident &&
        Grammar.isFree (i.peek 1).text) = true then bumpAs .freeKw else _ : Rule Unit) i = _
      rw [if_neg hnot]
    rw [hrun]
    refine (accepts_variableName.then_ (.ifAt_pos first_comparison.mul_left
      (accepts_comparisonBump.then_ accepts_constant))) i us (hfit.mono (G := F) ?_ fun _ h => h)
    exact (mul_assoc _ _ _).le

theorem accepts_constantBound : Accepts constantBound () (Production.constant * Production.comparison *
    Production.one .ident * optional (Production.comparison * Production.constant)) AtEnd := by
  have htail : Accepts (atSet Grammar.comparisons >>= fun b => if b = true then
      bump >>= fun _ => constant else pure ()) ()
      (optional (Production.comparison * Production.constant)) AtEnd :=
    .add (.ifAt_neg (.one fun _ h => h.ne.1) .pure) (.ifAt_pos first_comparison.mul_left
      (accepts_comparisonBump.then_ accepts_constant))
  rw [mul_assoc, mul_assoc]
  refine accepts_constant.then_ (.ifAt_pos first_comparison.mul_left
    (accepts_comparisonBump.then_ ?_))
  exact .ifAt_pos (First.mul_left (.kind rfl)) (accepts_variableName.then_ htail)

theorem accepts_bound : Accepts bound () (Production.statement .bound) AtEnd := by
  refine .node (.add ?_ ?_)
  · refine .ifAt_pos (.add (First.mul_left (.kind rfl)) ?_) ?_
    · rw [mul_assoc]
      exact First.mul_left (.kind rfl)
    · exact (accepts_variableBound.then_ accepts_endOfStatement).weaken (mul_one _).ge fun _ h => h
  · refine .ifAt_neg ?_ ?_
    · rw [mul_assoc, mul_assoc]
      exact First.mul_left (first_constant Bool.noConfusion Bool.noConfusion Bool.noConfusion
        Bool.noConfusion)
    · refine (accepts_constantBound.bind accepts_endOfStatement ?_).weaken (mul_one _).ge fun _ h => h
      rintro w rfl us hus
      exact hus

theorem accepts_declaration : Accepts declaration () (Production.statement .declaration) AtEnd := by
  have hrun : ∀ i, declarationStep i = (if Grammar.variableFirst.contains (i.peek 0).kind = true then
      variableName >>= fun _ => pure true
    else if Grammar.junk.contains (i.peek 0).kind = true then
      skipToken .variableName >>= fun _ => pure true
    else pure false : Rule Bool) i := fun _ => rfl
  have hgo : Accepts declarationStep true (Production.one .ident) fun _ => True := by
    intro i us hfit
    have hk := hfit.kind (.kind (S := fun k => Grammar.variableFirst.contains k = true) rfl)
    rw [hrun, if_pos hk]
    exact accepts_variableName.answer true i us hfit
  have hstop : Accepts declarationStep false 1 AtEnd := by
    intro i us hfit
    have hk := hfit.kind (.one (S := fun k => ¬ Grammar.variableFirst.contains k = true ∧
      ¬ Grammar.junk.contains k = true) fun us h => ?_)
    · rw [hrun, if_neg hk.1, if_neg hk.2]
      exact Accepts.pure i us hfit
    · exact ⟨h.ne.2.2.1, h.ne.2.2.2.1⟩
  have hloop : Accepts (repeatWhile declarationStep) () (Production.one .ident)∗ AtEnd := by
    refine .repeatWhile hgo ?_ hstop
    rintro w ⟨t, _, rfl⟩
    exact List.cons_ne_nil _ _
  rw [declaration_eq, Production.statement]
  refine .node ((hloop.bind accepts_endOfStatement ?_).weaken ?_ fun _ h => h)
  · rintro w rfl us hus
    exact hus
  · rw [mul_one]
    exact mul_kstar_le_kstar

/-! ### Sets -/

theorem accepts_sosEntry : Accepts sosEntry () Production.entry F := by
  rw [Production.entry, mul_assoc]
  exact .node (Accepts.bump.then_ (Accepts.bump.then_ accepts_constant))

theorem entry_cases {w : List Token} (h : w ∈ Production.entry) : ∃ t c v, t.kind = .ident ∧
    c.kind = .colon ∧ v ∈ Production.constant ∧ w = t :: c :: v := by
  obtain ⟨_, ⟨_, ⟨t, ht, rfl⟩, _, ⟨c, hc, rfl⟩, rfl⟩, v, hv, rfl⟩ := h
  exact ⟨t, c, v, ht, hc, hv, rfl⟩

theorem accepts_sosEntries : Accepts sosEntries () Production.entry∗ AtEnd := by
  have hrun : ∀ i, sosEntriesStep i = (if ((i.peek 0).kind == .ident && (i.peek 1).kind == .colon) =
      true then sosEntry >>= fun _ => pure true else pure false : Rule Bool) i := fun _ => rfl
  rw [sosEntries_eq]
  refine .repeatWhile (fun i us hfit => ?_) (fun w hw => ?_) fun i us hfit => ?_
  · obtain ⟨w, hw, ht⟩ := hfit.exists_word
    obtain ⟨t, c, v, hk, hc, _, rfl⟩ := entry_cases hw
    have hahead : ((i.peek 0).kind == .ident && (i.peek 1).kind == .colon) = true := by
      rw [hfit.plain.kind_peek_drop, hfit.plain.kind_peek_drop, ht, Bool.and_eq_true, beq_iff_eq,
        beq_iff_eq]
      exact ⟨hk, hc⟩
    rw [hrun, if_pos hahead]
    exact accepts_sosEntry.answer true i us hfit
  · obtain ⟨t, c, v, _, _, _, rfl⟩ := entry_cases hw
    exact List.cons_ne_nil _ _
  · have hk := hfit.kind (.one (S := fun k => k ≠ .ident) fun us h => h.ne.2.2.2.2)
    have hahead : ¬ ((i.peek 0).kind == .ident && (i.peek 1).kind == .colon) = true := by
      rw [Bool.and_eq_true, beq_iff_eq]
      exact fun h => hk h.1
    rw [hrun, if_neg hahead]
    exact Accepts.pure i us hfit

theorem accepts_sosTail : Accepts (bumpAs .sosType >>= fun _ => bump >>= fun _ =>
    sosEntries >>= fun _ => endOfStatement) ()
    (Production.sosType * (Production.one .colon2 * Production.entry∗)) AtEnd := by
  refine (Accepts.bumpAs _).then_ (Accepts.bump.then_ ?_)
  refine (accepts_sosEntries.bind accepts_endOfStatement ?_).weaken (mul_one _).ge fun _ h => h
  rintro w rfl us hus
  exact hus

theorem sosItem_run (i : Input) : sosItem i =
    (if (sosAhead i).1 = true ∨ (sosAhead i).2 = true then sosSet (sosAhead i).1
      else atSosEntry >>= fun b => if b = true then sosEntries >>= fun _ => endOfStatement
        else recover .sosSetOrEntry) i := rfl

theorem isSosType_of {t : Token} (hk : t.kind = .ident)
    (h : Text.sameLetters "s1".toList t.text = true ∨ Text.sameLetters "s2".toList t.text = true) :
    isSosType t = true := by
  rw [isSosType, hk, Grammar.isSosType, Grammar.sosTypes]
  simpa using h

theorem accepts_sosItem : Accepts sosItem () (Production.statement .sos) AtEnd := by
  rw [Production.statement, optional, mul_assoc, mul_assoc, add_mul, one_mul]
  refine .add (.add (fun i us hfit => ?_) fun i us hfit => ?_) fun i us hfit => ?_
  · -- a set without a label
    obtain ⟨_, ⟨_, ⟨t, ⟨hk, hs⟩, rfl⟩, _, ⟨_, ⟨c, hc, rfl⟩, v, hv, rfl⟩, rfl⟩, ht⟩ := hfit.exists_word
    have h₀ : i.peek 0 = t := hfit.plain.peek_zero ht
    have h₁ : (i.peek 1).kind = .colon2 := by
      rw [hfit.plain.kind_peek_drop, ht]
      exact hc
    have hahead : sosAhead i = (false, true) := by
      rw [sosAhead, h₀, h₁, isSosType_of hk hs]
      rfl
    rw [sosItem_run, hahead, if_pos (.inr rfl)]
    exact Accepts.node accepts_sosTail i us hfit
  · -- a set with a label
    obtain ⟨_, ⟨_, ⟨_, ⟨x, hx, rfl⟩, _, ⟨y, hy, rfl⟩, rfl⟩, _, ⟨_, ⟨t, ⟨hk, hs⟩, rfl⟩, _,
      ⟨_, ⟨c, hc, rfl⟩, v, hv, rfl⟩, rfl⟩, rfl⟩, ht⟩ := hfit.exists_word
    have h₁ : (i.peek 1).kind = .colon := by
      rw [hfit.plain.kind_peek_drop, ht]
      exact hy
    have h₂ : i.peek 2 = t := by
      rw [hfit.plain.peek_succ ht, (hfit.plain.advance ht).peek_succ rfl,
        ((hfit.plain.advance ht).advance rfl).peek_zero rfl]
    have h₃ : (i.peek 3).kind = .colon2 := by
      rw [hfit.plain.kind_peek_drop, ht]
      exact hc
    have hahead : (sosAhead i).1 = true := by
      rw [sosAhead, h₁, h₂, h₃, isSosType_of hk hs]
      rfl
    rw [sosItem_run, if_pos (.inl hahead), hahead]
    rw [label_eq] at hfit
    exact Accepts.node ((accepts_label colon).then_ accepts_sosTail) i us hfit
  · -- entries
    obtain ⟨_, ⟨w, hw, v, hv, rfl⟩, ht⟩ := hfit.exists_word
    obtain ⟨t, c, u, hk, hc, hu, rfl⟩ := entry_cases hw
    have h₀ : i.peek 0 = t := hfit.plain.peek_zero ht
    have h₁ : (i.peek 1).kind = .colon := by
      rw [hfit.plain.kind_peek_drop, ht]
      exact hc
    have h₂ : (i.peek 2).kind ≠ .ident := by
      rw [hfit.plain.kind_peek_drop, ht]
      have := first_constant (S := fun k => k ≠ .ident) (F := fun _ => True) Kind.noConfusion
        Kind.noConfusion Kind.noConfusion Kind.noConfusion u hu (v ++ us) trivial
      rwa [← List.append_assoc] at this
    have hahead : sosAhead i = (false, false) := by
      have hnot : isSosType (i.peek 2) = false := by
        rw [isSosType, beq_false_of_ne h₂]
        rfl
      rw [sosAhead, h₁, hnot]
      exact Prod.ext rfl (Bool.and_false _)
    have hentry : ((i.peek 0).kind == .ident && (i.peek 1).kind == .colon) = true := by
      rw [h₀, hk, h₁]
      rfl
    have hrun : sosItem i = (sosEntries >>= fun _ => endOfStatement) i := by
      rw [sosItem_run, hahead, if_neg (by decide)]
      change (if ((i.peek 0).kind == .ident && (i.peek 1).kind == .colon) = true then _ else _ :
        Rule Unit) i = _
      rw [if_pos hentry]
    rw [hrun]
    refine (accepts_sosEntries.bind accepts_endOfStatement ?_) i us (hfit.mono ?_ fun _ h => h)
    · rintro w rfl us hus
      exact hus
    · rw [mul_one]
      exact mul_kstar_le_kstar

/-! ## All statements -/

theorem accepts_statementBody (rule : StatementRule) :
    Accepts (statementBody rule) () (Production.statement rule) AtEnd := by
  cases rule with
  | implicit => exact accepts_implicit
  | objective => exact accepts_objective
  | constraint => exact accepts_constraint
  | bound => exact accepts_bound
  | declaration => exact accepts_declaration
  | sos => exact accepts_sosItem

theorem first_anyLabel {S : Kind → Prop} (h : S .ident) : First S Production.anyLabel F :=
  First.mul_left (.kind h)

theorem first_expression {S : Kind → Prop} (hp : S .plus) (hm : S .minus) (hn : S .number)
    (hi : S .infinity) (hv : S .ident) : First S Production.expression F :=
  First.mul_left (first_term hp hm hn hi hv)

/-- A statement begins with a token that may begin one. -/
theorem first_statement (rule : StatementRule) :
    First (fun k => rule.first.contains k = true) (Production.statement rule) F := by
  cases rule with
  | implicit =>
    refine .add (first_anyLabel rfl) (First.mul_left (.optional_mul (first_anyLabel rfl) ?_))
    exact first_expression rfl rfl rfl rfl rfl
  | objective =>
    refine .add (First.mul_left (.kind rfl)) (.optional_mul (First.mul_left (.kind rfl)) ?_)
    exact first_expression rfl rfl rfl rfl rfl
  | constraint =>
    refine First.mul_left (First.mul_left (.optional_mul (first_anyLabel rfl) ?_))
    exact first_expression rfl rfl rfl rfl rfl
  | bound =>
    refine .add (.add (First.mul_left (.kind rfl)) (First.mul_left (First.mul_left (.kind rfl)))) ?_
    exact First.mul_left (First.mul_left (First.mul_left (first_constant rfl rfl rfl rfl)))
  | declaration => exact First.mul_left (.kind rfl)
  | sos =>
    refine .add (First.mul_left (First.mul_left (.optional_mul (First.mul_left (.kind rfl)) ?_))) ?_
    · exact .single fun t ht => ht.1 ▸ rfl
    · exact First.mul_left (First.mul_left (First.mul_left (.kind rfl)))

theorem not_statementEnd_of_first {rule : StatementRule} {k : Kind}
    (h : rule.first.contains k = true) : ¬ Grammar.statementEnd.contains k = true := by
  rw [Kind.not_statementEnd_of_isInline (inline_first rule k h)]
  exact Bool.false_ne_true

/-- **A statement of any rule.** -/
theorem accepts_statement (rule : StatementRule) :
    Accepts (statement rule) () (Production.statement rule) AtEnd := by
  intro i us hfit
  have hk := hfit.kind (first_statement rule)
  rw [statement_eq rule hfit.plain.proper (not_statementEnd_of_first hk)]
  exact Accepts.ifAt_pos (first_statement rule) (accepts_statementBody rule) i us hfit

theorem statement_ne_nil {rule : StatementRule} {w : List Token}
    (h : w ∈ Production.statement rule) : w ≠ [] := by
  rintro rfl
  have := first_statement rule (F := fun _ => True) [] h [] trivial
  revert this
  cases rule <;> decide

/-! ## Bodies -/

/-- A body can end here. -/
def AtClose (us : List Token) : Prop :=
  nextKind us = .eof ∨ (nextKind us).isSectionKeyword = true

theorem AtClose.atEnd {us : List Token} (h : AtClose us) : AtEnd us := Grammar.contains_statementEnd.2 (.inr h)

theorem accepts_body (rule : StatementRule) :
    Accepts (body rule) () (Production.body (Production.statement rule)) AtClose := by
  have hnewline : Accepts (bodyStep rule) true (Production.one .newline) fun _ => True := by
    intro i us hfit
    have hk := hfit.kind (.kind (S := fun k => k = .newline) rfl)
    obtain ⟨_, hrun⟩ := Accepts.bump i us hfit
    rw [bodyStep_newline rule hk]
    exact ⟨rfl, hrun⟩
  have hne : ∀ w ∈ Production.one .newline, w ≠ [] := by
    rintro w ⟨t, _, rfl⟩
    exact List.cons_ne_nil _ _
  have hstatement : Accepts (bodyStep rule) true (Production.statement rule) AtEnd := by
    intro i us hfit
    have hk := not_statementEnd_of_first (hfit.kind (first_statement rule))
    obtain ⟨_, hrun⟩ := accepts_statement rule i us hfit
    rw [bodyStep_statement rule hk]
    exact ⟨rfl, hrun⟩
  have hstop : Accepts (repeatWhile (bodyStep rule)) () 1 AtClose := by
    refine .loop_stop fun i us hfit => ?_
    have hborder : AtBorder i :=
      hfit.kind (.one (S := fun k => k = .eof ∨ k.isSectionKeyword = true) fun _ h => h)
    rw [bodyStep_border rule hborder]
    exact Accepts.pure (a := false) i us hfit
  have hblank : Accepts (repeatWhile (bodyStep rule)) () (Production.one .newline)∗ AtClose :=
    (Accepts.loop_kstar hnewline hne hstop).weaken (mul_one _).ge fun _ h => h
  -- after a statement its line ends
  have hfirst : First (fun k => Grammar.statementEnd.contains k = true)
      (afterStatement (Production.statement rule)) AtClose :=
    .kstar_mul (First.mul_left (First.mul_left (.kind rfl))) (.kstar (.kind rfl) fun _ h => h.atEnd)
  have hafter : Accepts (repeatWhile (bodyStep rule)) ()
      (afterStatement (Production.statement rule)) AtClose := by
    refine .kstar_mul hblank fun r hr hmore => ?_
    rw [mul_assoc, mul_assoc]
    refine .loop_cons hnewline hne (.loop_kstar hnewline hne (.loop_cons hstatement
      (fun w => statement_ne_nil) hmore ?_)) fun _ _ _ _ => trivial
    rintro w rfl us hus
    exact hfirst w hr us hus
  rw [body_eq, Production.body, mul_assoc (Production.statement rule)]
  refine .loop_kstar hnewline hne (.add hstop ?_)
  exact .loop_cons hstatement (fun w => statement_ne_nil) hafter hfirst

/-! ## Sections and documents -/

theorem sectionBlock_cases {w : List Token} (h : w ∈ Production.sectionBlock) : ∃ t v s,
    Grammar.section? t.kind = some s ∧ v ∈ Production.body (Production.statement s.rule) ∧
      w = t :: v := by
  obtain ⟨s, hs, _, ⟨t, ht, rfl⟩, v, hv, rfl⟩ := h
  refine ⟨t, v, s, ?_, hv, rfl⟩
  have hall : ∀ s ∈ Grammar.sections, Grammar.section? s.keyword = some s := by decide
  rw [ht, hall s hs]

theorem first_sectionBlock {S : Kind → Prop} (h : ∀ k, k.isSectionKeyword = true → S k) :
    First S Production.sectionBlock F := by
  intro w hw us _
  obtain ⟨t, v, s, hs, _, rfl⟩ := sectionBlock_cases hw
  exact h _ (Grammar.isSectionKeyword_of_section? hs).1

/-- A section that another one or `End` follows. -/
theorem accepts_sectionsStep : Accepts sectionsStep true Production.sectionBlock
    fun us => (nextKind us).isSectionKeyword = true := by
  intro i us hfit
  obtain ⟨w, hw, ht⟩ := hfit.exists_word
  obtain ⟨t, v, s, hs, hv, rfl⟩ := sectionBlock_cases hw
  rw [List.cons_append] at ht
  have hat : AtSection s i := by
    rw [AtSection, hfit.plain.peek_zero ht]
    exact hs
  obtain ⟨_, hd, hplain, hrest⟩ := accepts_body s.rule (i.after t (v ++ us)) us
    ⟨hfit.plain.after ht, ⟨v, hv, rfl⟩, .inr hfit.follow⟩
  have hrun := sectionBlock_run s hfit.plain.proper (hfit.plain.next ht)
  have hopen : ¬ ((sectionBlock s i).rest.peek 0).kind = .eof := by
    rw [hrun, hplain.kind_peek, hrest]
    intro he
    have := hfit.follow
    rw [he] at this
    cases this
  rw [sectionsStep_some hat, closing, if_neg hopen, hrun]
  refine ⟨rfl, ?_, hplain, hrest⟩
  rw [Output.append_empty]
  exact hd

theorem accepts_noSection {l : Language Token}
    (h : First (fun k => Grammar.section? k = none) l F) (hl : l ≤ 1) :
    Accepts sections () l F := by
  rw [sections_eq]
  refine .loop_stop fun i us hfit => ?_
  rw [sectionsStep_none (hfit.kind h)]
  exact Accepts.pure (a := false) i us (hfit.mono hl fun _ h => h)

theorem accepts_sections : Accepts sections ()
    (Production.sectionBlock * Production.sectionBlock∗) fun us => nextKind us = .endKw := by
  have hne : ∀ w ∈ Production.sectionBlock, w ≠ [] := by
    intro w hw
    obtain ⟨t, v, s, _, _, rfl⟩ := sectionBlock_cases hw
    exact List.cons_ne_nil _ _
  have hstop : Accepts (repeatWhile sectionsStep) () 1 fun us => nextKind us = .endKw :=
    accepts_noSection (.one fun us h => by rw [h]; rfl) le_rfl
  have hfirst : First (fun k => k.isSectionKeyword = true) (Production.sectionBlock∗ * 1)
      fun us => nextKind us = .endKw :=
    .kstar_mul (first_sectionBlock fun _ h => h) (.one fun us h => by rw [h]; rfl)
  have hmore : Accepts (repeatWhile sectionsStep) () (Production.sectionBlock∗ * 1)
      fun us => nextKind us = .endKw := by
    refine .kstar_mul hstop fun r hr hrest => ?_
    refine .loop_cons accepts_sectionsStep hne hrest ?_
    rintro w rfl us hus
    exact hfirst w hr us hus
  rw [sections_eq]
  refine (Accepts.loop_cons accepts_sectionsStep hne hmore hfirst).weaken ?_ fun _ h => h
  rw [mul_one]

theorem accepts_endMark : Accepts endMark () (Production.one .endKw * (Production.one .newline)∗)
    fun us => nextKind us = .eof := by
  have hrun : ∀ i, afterEndStep i = (if (i.peek 0).kind = .eof then pure false
    else if (i.peek 0).kind = .newline then bump >>= fun _ => pure true
    else if (i.peek 0).kind.isSectionKeyword = true then
      skipToken .endOfInput >>= fun _ => pure true
    else recover .endOfInput >>= fun _ => pure true : Rule Bool) i := fun _ => rfl
  have hafter : Accepts afterEnd () (Production.one .newline)∗ fun us => nextKind us = .eof := by
    rw [afterEnd_eq]
    refine .repeatWhile (fun i us hfit => ?_) ?_ fun i us hfit => ?_
    · have hk := hfit.kind (.kind (S := fun k => k = .newline) rfl)
      rw [hrun, if_neg (by rw [hk]; exact Kind.noConfusion), if_pos hk]
      exact Accepts.bump.answer true i us hfit
    · rintro w ⟨t, _, rfl⟩
      exact List.cons_ne_nil _ _
    · have hk := hfit.kind (.one (S := fun k => k = .eof) fun _ h => h)
      rw [hrun, if_pos hk]
      exact Accepts.pure i us hfit
  refine .branch_pos (c := fun i => (i.peek 0).kind = .endKw) (fun i us hfit => ?_)
    ((Accepts.node .bump).then_ hafter)
  exact hfit.kind (First.mul_left (.kind (S := fun k => k = .endKw) rfl))

theorem accepts_noEndMark : Accepts endMark () 1 fun us => nextKind us = .eof := by
  refine .branch_neg (c := fun i => (i.peek 0).kind = .endKw) (fun i us hfit => ?_) .pure
  exact hfit.kind (.one (S := fun k => k ≠ .endKw) fun us h => by rw [h]; exact Kind.noConfusion)

/-- **A whole document.** -/
theorem accepts_contents :
    Accepts contents () Production.document fun us => nextKind us = .eof := by
  have hend : ∀ w ∈ Production.one .endKw * (Production.one .newline)∗, ∀ us : List Token,
      nextKind us = .eof → nextKind (w ++ us) = .endKw :=
    First.mul_left (.kind (S := fun k => k = .endKw) rfl)
  rw [Production.document, optional, mul_add, mul_add, mul_assoc (Production.sectionBlock * _)]
  refine .add ?_ (.add ?_ ?_)
  · -- no section and no end
    have hsections : Accepts sections () 1 fun us => nextKind us = .eof :=
      accepts_noSection (.one fun us h => by rw [h]; rfl) le_rfl
    refine (accepts_body .implicit).bind ((hsections.bind accepts_noEndMark ?_).weaken
      (one_mul _).ge fun _ h => h) ?_
    · rintro w rfl us hus
      exact hus
    · rintro w rfl us hus
      exact .inl hus
  · -- an end only
    have hsections : Accepts sections () 1 fun us => nextKind us = .endKw :=
      accepts_noSection (.one fun us h => by rw [h]; rfl) le_rfl
    refine (accepts_body .implicit).bind ((hsections.bind accepts_endMark hend).weaken
      (one_mul _).ge fun _ h => h) fun w hw us hus => .inr ?_
    rw [hend w hw us hus]
    rfl
  · refine (accepts_body .implicit).bind (accepts_sections.bind accepts_endMark hend)
      fun w hw us hus => .inr ?_
    exact First.mul_left (F := fun us => nextKind us = .eof) (First.mul_left (first_sectionBlock
      (S := fun k => k.isSectionKeyword = true) fun _ h => h)) w hw us hus

/-- A document that is a word of the grammar is read without faults. -/
theorem document_accepts {i : Input} (hi : i.Plain) (h : i.tokens ∈ Production.document) :
    (document i).output.diagnostics = [] := by
  obtain ⟨_, hd, _, hrest⟩ := accepts_contents i [] ⟨hi, ⟨_, h, (List.append_nil _).symm⟩, rfl⟩
  rw [document_run hi.proper, hrest]
  exact (List.append_nil _).trans hd

end LpFormat.Rule
