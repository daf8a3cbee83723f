import LpFormat.Proofs.Parsing.Linear

/-!
# Statements: specifications

A statement that starts at a token takes it and ends where a statement can end. Only expressions go
over line ends; a line of SOS entries takes none.

* `Rule.Wraps`: rules that take one node, `Rule.Wraps.spec`;
* `Rule.Opens`: rules that start with a node, `Rule.Wraps.opens`, **`Rule.statement_opens`**;
* `Rule.Labelled`: rules with a label and an expression; `Rule.labelled_implicit`,
  `Rule.labelled_objective`, `Rule.labelled_constraint`;
* `Rule.wraps_bound`, `Rule.wraps_declaration`, `Rule.wraps_sosSet`, `Rule.spec_sosItem`: the other
  kinds of statements;
* **`Rule.spec_statement`**, `Rule.statement_eq`: a statement takes something by itself, so the
  safeguard against standing still is never needed.
-/

namespace LpFormat.Rule

variable {K : Kind → Prop} {n : Nat} {P : Input → Prop}

/-- A statement was taken and ends here. -/
def Ended (n : Nat) (j : Input) : Prop := n < j.taken ∧ At Grammar.statementEnd j

/-- A rule wraps all that it takes in one node. -/
def Wraps (K : Kind → Prop) (n : Nat) (P : Input → Prop) (p : Rule Unit) (Q : Input → Prop) : Prop :=
  ∃ body : Rule Kind, p = nodeOf body ∧ ∀ m, n ≤ m → Spec K m P body fun k j =>
    k.isNode = true ∧ K k ∧ m < j.taken ∧ Q j

/-- A rule takes trivia, then a node and perhaps more. Without the trivia it takes the same. -/
structure Opens (p : Rule Unit) (i : Input) (v : List Token) (t : Token) (us : List Token)
    (more : List Skeleton) : Prop where
  forest : ∃ k g, k.isNode = true ∧
    (p i).output.events = Skeleton.eventsAll (Skeleton.trivia v ++ .node k g :: more)
  advance : p i =
    ⟨(), .trivia v ++ (p (i.advance (t :: us))).output, (p (i.advance (t :: us))).rest⟩

theorem Opens.bind {p q : Rule Unit} {i : Input} {v us : List Token} {t : Token}
    {more : List Skeleton} (h : Opens p i v t us [])
    (hq : (q (p i).rest).output.events = Skeleton.eventsAll more) :
    Opens (p >>= fun _ => q) i v t us more := by
  obtain ⟨⟨k, g, hk, he⟩, hadvance⟩ := h
  have hrest : (p i).rest = (p (i.advance (t :: us))).rest := by rw [hadvance]
  have hout : (p i).output = .trivia v ++ (p (i.advance (t :: us))).output := by rw [hadvance]
  refine ⟨⟨k, g, hk, ?_⟩, ?_⟩
  · rw [bind_run, Output.events_append, he, hq, ← Skeleton.eventsAll_append, List.append_assoc]
    rfl
  · rw [bind_run, bind_run, hrest, hout, Output.append_assoc]

namespace Wraps

variable {p : Rule Unit} {Q : Input → Prop}

theorem of_node {kind : Kind} {body : Rule Unit} (hk : kind.isNode = true) (hK : K kind)
    (hb : ∀ m, n ≤ m → Spec K m P body fun _ j => m < j.taken ∧ Q j) :
    Wraps K n P (node kind body) Q :=
  ⟨_, rfl, fun m hm => (hb m hm).bind fun _ => .pure fun _ h => ⟨hk, hK, h⟩⟩

theorem spec (h : Wraps K n P p Q) (hP : Stable P) (hne : ∀ i, P i → (i.peek 0).kind ≠ .eof) :
    Spec K n P p fun _ j => n < j.taken ∧ Q j := by
  obtain ⟨body, rfl, hb⟩ := h
  exact .nodeOf hP hne hb

theorem opens {i : Input} {v us : List Token} {t : Token} (h : Wraps K i.taken P p Q)
    (hP : Stable P) (hi : i.Proper) (hPi : P i) (hn : i.Next v t us) : Opens p i v t us [] := by
  obtain ⟨body, rfl, hb⟩ := h
  have hpeek : ∀ m, (i.advance (t :: us)).peek m = i.peek m := hn.peek_advance
  have hspec := hb i.taken (Nat.le_refl _) (i.advance (t :: us))
    (hi.of_suffix rfl ⟨v, hn.tokens.symm⟩) (Nat.le_refl _) (hP i _ hpeek rfl hPi)
  obtain ⟨xs, g, _, he⟩ := hspec.trace
  have hrun := nodeOf_run hn.tokens hn.trivia hn.head? body
  have hrun' := nodeOf_run (i := i.advance (t :: us)) (v := []) rfl allTrivia_nil hn.head? body
  refine ⟨⟨_, g, hspec.post.1, ?_⟩, ?_⟩
  · rw [hrun, Skeleton.eventsAll_append, Skeleton.eventsAll_trivia, Skeleton.eventsAll_singleton,
      Skeleton.events, ← he]
    rfl
  · rw [hrun, hrun', Output.trivia_nil, Output.empty_append]
    rfl

end Wraps

theorem contains_labelSeparators : ∀ {k : Kind}, labelSeparators.contains k = true ↔
    k = .colon ∨ k = .colon2 := by decide

theorem inline_colon : ∀ k, colon.contains k = true → k.isInline = true :=
  inline_ofList (by decide)

theorem inline_labelSeparators : ∀ k, labelSeparators.contains k = true → k.isInline = true :=
  inline_ofList (by decide)

section Statement

variable (hK : Inline K)

include hK

theorem spec_endOfStatement :
    Spec K n (fun i => n < i.taken) endOfStatement fun _ => Ended n := by
  refine .ifAt (.pure fun _ h => h) ?_
  exact Spec.recover hK.skips _ fun i h => .inr h.1

theorem spec_recover_ended (e : Expected) :
    Spec K n (fun i => n < i.taken) (recover e) fun _ j => n < j.taken :=
  (Spec.recover hK.skips e fun _ h => .inr h).post fun _ _ h => h.1

/-! ## Objectives and constraints -/

omit hK in
/-- A rule takes one node that starts with a label and an expression, where at least one of them
comes next; what follows them stays on its line. -/
def Labelled (p : Rule Unit) : Prop :=
  ∃ (separators : KindSet) (f : Bool → Rule Kind),
    p = nodeOf (label separators >>= fun _ => expression >>= f) ∧
    (∀ k, separators.contains k = true → k.isInline = true) ∧
    ∀ (K : Kind → Prop) (m : Nat) (found : Bool), Inline K →
      Spec K m (fun i => m < i.taken) (f found) fun k j =>
        k.isNode = true ∧ K k ∧ m < j.taken ∧ At Grammar.statementEnd j

/-- After a label and an expression, where at least one of them comes next, something is taken. -/
theorem spec_labelled {α : Type} {separators : KindSet} (hnl : K .newline)
    (hs : ∀ k, separators.contains k = true → k.isInline = true) {f : Bool → Rule α}
    {Q : α → Input → Prop} (hf : ∀ b, Spec K n (fun i => n < i.taken) (f b) Q) :
    Spec K n (At Grammar.termFirst) (label separators >>= fun _ => expression >>= f) Q := by
  refine .bind (spec_label (R := fun _ => True) hK hs fun _ _ _ _ _ => trivial) fun _ => ?_
  refine .bind (spec_expression hK hnl) fun b => (hf b).pre ?_
  rintro i (⟨_, h⟩ | ⟨_, ⟨h, _⟩ | ⟨h, _⟩, hnot⟩)
  · exact h
  · exact absurd h hnot
  · exact h

theorem Labelled.wraps {p : Rule Unit} (h : Labelled p) (hnl : K .newline) :
    Wraps K n (At Grammar.termFirst) p (At Grammar.statementEnd) := by
  obtain ⟨separators, f, hp, hs, hf⟩ := h
  exact ⟨_, hp, fun m _ => spec_labelled hK hnl hs fun found => hf K m found hK⟩

omit hK in
/-- A node of a given kind around a label, an expression and what follows. -/
theorem labelled_node {kind : Kind} {separators : KindSet} {f : Bool → Rule Unit}
    (hk : kind.isNode = true) (hin : kind.isInline = true)
    (hs : ∀ k, separators.contains k = true → k.isInline = true)
    (hf : ∀ (K : Kind → Prop) (m : Nat) (found : Bool), Inline K →
      Spec K m (fun i => m < i.taken) (f found) fun _ => Ended m) :
    Labelled (node kind (label separators >>= fun _ => expression >>= f)) := by
  refine ⟨separators, fun found => f found >>= fun _ => pure kind, ?_, hs, fun K m found hK => ?_⟩
  · refine congrArg nodeOf ((bind_assoc _ _ _).trans ?_)
    exact congrArg (label separators >>= ·) (funext fun _ => bind_assoc _ _ _)
  · exact .bind (hf K m found hK) fun _ => .pure fun j h => ⟨hk, hK _ hin, h⟩

omit hK in
theorem labelled_implicit : Labelled implicit := by
  refine ⟨labelSeparators, _, rfl, inline_labelSeparators, fun K m found hK => .ifAt ?_ ?_⟩
  · have htail : Spec K m (fun i => m < i.taken)
        (comparisonTail >>= fun _ => endOfStatement >>= fun _ => pure Kind.constraint)
        fun k j => k.isNode = true ∧ K k ∧ m < j.taken ∧ At Grammar.statementEnd j :=
      .bind (spec_comparisonTail hK) fun _ => .bind (spec_endOfStatement hK) fun _ =>
        .pure fun j h => ⟨rfl, hK _ rfl, h⟩
    refine .ite (fun _ => htail.pre fun i h => h.1) fun _ => ?_
    refine .bind (.missing _ fun i h => h.1) fun _ => htail.pre fun i h => h.1
  · have htail : Spec K m (fun i => m < i.taken)
        (endOfStatement >>= fun _ => pure Kind.objective)
        fun k j => k.isNode = true ∧ K k ∧ m < j.taken ∧ At Grammar.statementEnd j :=
      .bind (spec_endOfStatement hK) fun _ => .pure fun j h => ⟨rfl, hK _ rfl, h⟩
    refine .bind (.atSet _) fun _ => .ite (fun _ => htail.pre fun i h => h.1) fun _ => ?_
    exact .bind ((spec_recover_ended hK _).pre fun i h => h.1) fun _ => htail

omit hK in
theorem labelled_objective : Labelled objective := by
  refine labelled_node rfl rfl inline_colon fun K m found hK => ?_
  refine .bind (.atSet _) fun _ => .ite (fun _ => spec_endOfStatement hK) fun _ => ?_
  exact .bind (spec_recover_ended hK _) fun _ => spec_endOfStatement hK

omit hK in
theorem labelled_constraint : Labelled constraint := by
  refine labelled_node rfl rfl inline_labelSeparators fun K m found hK => ?_
  have htail : Spec K m (fun i => m < i.taken) (comparisonTail >>= fun _ => endOfStatement)
      fun _ => Ended m := .bind (spec_comparisonTail hK) fun _ => spec_endOfStatement hK
  refine .bind (.atSet _) fun _ => .ite (fun _ => .ite (fun _ => htail) fun _ => ?_) fun _ => ?_
  · exact .bind (.missing _ fun i h => h) fun _ => htail
  · exact .bind (spec_recover_ended hK _) fun _ => spec_endOfStatement hK

/-! ## Bounds and declarations -/

theorem spec_comparisonOr (e : Expected) :
    Spec K n (fun i => n < i.taken) (atSet Grammar.comparisons >>= fun b =>
      if b = true then bump >>= fun _ => constant else recover e) fun _ j => n < j.taken := by
  refine .ifAt ?_ ((spec_recover_ended hK e).pre fun i h => h.1)
  refine .bind (spec_bump_at hK inline_comparisons fun i h => h.2) fun _ => ?_
  exact spec_constant hK fun i h => .inl h

theorem spec_variableBound :
    Spec K n (At Grammar.variableFirst) variableBound fun _ j => n < j.taken := by
  change Spec K n (At Grammar.variableFirst)
    ((fun i => ⟨(i.peek 1).isFree, {}, i⟩ : Rule Bool) >>= fun free => variableName >>= fun _ =>
      if free = true then bumpAs .freeKw
      else atSet Grammar.comparisons >>= fun b =>
        if b = true then bump >>= fun _ => constant else recover .freeOrComparison) _
  refine .bind (.test ?_) fun free => .bind (Q := fun _ j => n < j.taken ∧
    (j.peek 0).isFree = free) (spec_variableName hK (fun i h => h.1) ?_) fun _ =>
    .ite (fun hfree => ?_) fun _ => (spec_comparisonOr hK _).pre fun i h => h.1
  · intro C i i' hC hi h
    refine (hi.peek_of_lt hC 1 fun m hm => ?_).free
    obtain rfl : m = 0 := by omega
    exact Kind.not_statementEnd_of_isInline (inline_variableFirst _ h)
  · rintro i j ⟨_, rfl⟩ hp
    rw [hp 0]
  · refine .bumpAs ?_ fun _ _ _ h _ => h
    rintro i _ ⟨_, h⟩
    rw [hfree, Token.isFree, Bool.and_eq_true, beq_iff_eq] at h
    rw [h.1]
    exact ⟨Kind.noConfusion, hK _ rfl, .free h.1 h.2⟩

theorem spec_constantBound :
    Spec K n (At Grammar.constantFirst) constantBound fun _ j => n < j.taken := by
  refine .bind (spec_constant hK fun i h => .inr h) fun _ => .ifAt ?_ ?_
  · refine .bind (spec_bump_at hK inline_comparisons fun i h => h.2) fun _ => .ifAt ?_ ?_
    · refine .bind (spec_variableName_begun hK fun i h => h.2) fun _ => .ifAt ?_ ?_
      · refine .bind (spec_bump_at hK inline_comparisons fun i h => h.2) fun _ => ?_
        exact spec_constant hK fun i h => .inl h
      · exact .pure fun i h => h.1
    · exact (spec_recover_ended hK _).pre fun i h => h.1
  · exact (spec_recover_ended hK _).pre fun i h => h.1

theorem wraps_bound :
    Wraps K n (At Grammar.termFirst) bound (At Grammar.statementEnd) := by
  refine .of_node rfl (hK _ rfl) fun m _ => .ifAt ?_ ?_
  · refine .bind ((spec_variableBound hK).pre fun i h => h.2) fun _ => spec_endOfStatement hK
  · refine .bind ((spec_constantBound hK).pre ?_) fun _ => spec_endOfStatement hK
    rintro i ⟨ht, hv⟩
    exact Grammar.constantFirst_of_termFirst ht hv

theorem wraps_declaration :
    Wraps K n (At Grammar.variableFirst) declaration (At Grammar.statementEnd) := by
  refine .of_node rfl (hK _ rfl) fun m _ => .bind (Q := fun _ j => m < j.taken) ?_ fun _ =>
    spec_endOfStatement hK
  -- the loop goes on as long as a name is next, so it takes the name it started at
  refine .weaken (P := fun j => At Grammar.variableFirst j ∨ m < j.taken)
    (Q := fun _ j => (At Grammar.variableFirst j ∨ m < j.taken) ∧ ¬ At Grammar.variableFirst j) ?_
    (fun i h => .inl h) fun _ j h => h.1.resolve_left h.2
  refine .repeatWhile fun l hl => .bind (.test (steady_kind.on _)) fun kind =>
    .ite (fun hk => ?_) fun hk => .ite (fun hj => ?_) fun hj => .pure ?_
  · refine .bind (spec_variableName_begun hK ?_) fun _ => .pure fun j h => ?_
    · rintro i ⟨_, rfl⟩
      exact hk
    · exact ⟨.inr (Nat.lt_of_le_of_lt hl h), fun _ => h, Bool.noConfusion⟩
  · refine .bind (spec_skipToken hK _ ?_) fun _ => .pure fun j h => ?_
    · rintro i ⟨_, rfl⟩
      exact hj
    · exact ⟨.inr (Nat.lt_of_le_of_lt hl h), fun _ => h, Bool.noConfusion⟩
  · rintro i ⟨h, rfl⟩
    exact ⟨h, Bool.noConfusion, fun _ => hk⟩

/-! ## SOS sets -/

omit hK in
theorem atLabel_colon_iff (i : Input) :
    AtLabel colon i ↔ ((i.peek 0).kind == .ident && (i.peek 1).kind == .colon) = true := by
  rw [AtLabel, Bool.and_eq_true, beq_iff_eq, beq_iff_eq]
  exact and_congr_right fun _ => KindSet.contains_singleton

omit hK in
theorem stable_atLabel (separators : KindSet) : Stable (AtLabel separators) :=
  fun i j hp _ h => by rwa [AtLabel, hp 0, hp 1]

omit hK in
theorem ne_eof_of_atLabel {separators : KindSet} {i : Input} (h : AtLabel separators i) :
    (i.peek 0).kind ≠ .eof := by
  rw [h.1]
  exact Kind.noConfusion

theorem wraps_sosEntry : Wraps K n (AtLabel colon) sosEntry fun _ => True := by
  refine .of_node rfl (hK _ rfl) fun m _ => ?_
  refine .bind (Q := fun _ j => At colon j) (.bump ?_ ?_) fun _ => ?_
  · intro i _ h
    rw [h.1]
    exact admitted hK rfl
  · intro i j h _ hp
    rw [At, hp 0]
    exact h.2
  · refine .bind (spec_bump_at hK inline_colon fun _ h => h) fun _ => ?_
    exact (spec_constant hK fun i h => .inl h).post fun _ _ h => ⟨h, trivial⟩

theorem spec_sosEntry :
    Spec K n (AtLabel colon) sosEntry fun _ j => n < j.taken :=
  ((wraps_sosEntry hK).spec (stable_atLabel _) fun _ => ne_eof_of_atLabel).post fun _ _ h => h.1

omit hK in
/-- A choice by whether an entry comes next. -/
theorem spec_ifAtSosEntry {α : Type} {p q : Rule α} {Q : α → Input → Prop}
    (hp : Spec K n (fun i => P i ∧ AtLabel colon i) p Q)
    (hq : Spec K n (fun i => P i ∧ ¬ AtLabel colon i) q Q) :
    Spec K n P (atSosEntry >>= fun b => if b = true then p else q) Q := by
  have htest : Steady fun i => ((i.peek 0).kind == .ident && (i.peek 1).kind == .colon) := by
    intro C i i' hC hi
    rw [Bool.eq_iff_iff, ← atLabel_colon_iff, ← atLabel_colon_iff,
      steady_atLabel colon C i i' hC hi]
  refine .bind (.test (htest.on P)) fun b => .ite (fun hb => hp.pre ?_) fun hb => hq.pre ?_
  · rintro i ⟨h, rfl⟩
    exact ⟨h, (atLabel_colon_iff i).2 hb⟩
  · rintro i ⟨h, rfl⟩
    exact ⟨h, mt (atLabel_colon_iff i).1 hb⟩

/-- One round of the entries of a set. -/
def sosEntriesStep : Rule Bool := do
  if ← atSosEntry then
    sosEntry
    return true
  else return false

omit hK in
theorem sosEntries_eq : sosEntries = repeatWhile sosEntriesStep := rfl

/-- Entries take tokens if one is next; otherwise nothing changes. -/
theorem spec_sosEntries :
    Spec K n P sosEntries fun _ j => (P j ∨ n < j.taken) ∧ ¬ AtLabel colon j := by
  refine .pre (P := fun j => P j ∨ n < j.taken) ?_ fun i h => .inl h
  refine .repeatWhile fun m hm => spec_ifAtSosEntry ?_ (.pure fun j h => ?_)
  · refine .bind ((spec_sosEntry hK).pre fun i h => h.2) fun _ => .pure fun j h => ?_
    exact ⟨.inr (Nat.lt_of_le_of_lt hm h), fun _ => h, Bool.noConfusion⟩
  · exact ⟨h.1, Bool.noConfusion, fun _ => h.2⟩

/-- The type of an SOS set and its double colon are next. -/
def AtSosType (i : Input) : Prop := isSosType (i.peek 0) = true ∧ (i.peek 1).kind = .colon2

omit hK in
theorem isSosType_iff (t : Token) :
    isSosType t = true ↔ t.kind = .ident ∧ Grammar.isSosType t.text = true := by
  rw [isSosType, Bool.and_eq_true, beq_iff_eq]

/-- The type of a set, its double colon and its entries. -/
theorem spec_sosTail :
    Spec K n AtSosType (bumpAs .sosType >>= fun _ => bump >>= fun _ => sosEntries >>= fun _ =>
      endOfStatement) fun _ => Ended n := by
  refine .bind (Q := fun _ j => (j.peek 0).kind = .colon2) (.bumpAs ?_ ?_) fun _ => ?_
  · rintro i _ ⟨h, _⟩
    obtain ⟨hk, ht⟩ := (isSosType_iff _).1 h
    rw [hk]
    exact ⟨Kind.noConfusion, hK _ rfl, .sosType hk ht⟩
  · rintro i j ⟨_, h⟩ _ hp
    rw [hp 0, h]
  · refine .bind (.bump_begun ?_) fun _ => .bind (spec_sosEntries hK) fun _ => ?_
    · intro i _ h
      rw [h]
      exact admitted hK rfl
    · refine (spec_endOfStatement hK).pre ?_
      rintro i ⟨h | h, _⟩
      · exact h
      · exact h

/-- A set comes next, with its label or without. -/
def AtSosSet : Bool → Input → Prop
  | true, i => AtLabel colon i ∧ isSosType (i.peek 2) = true ∧ (i.peek 3).kind = .colon2
  | false, i => AtSosType i

omit hK in
theorem stable_atSosSet (labelled : Bool) : Stable (AtSosSet labelled) := by
  intro i j hp _ h
  cases labelled <;> simpa only [AtSosSet, AtLabel, AtSosType, hp] using h

omit hK in
theorem ne_eof_of_atSosSet {labelled : Bool} {i : Input} (h : AtSosSet labelled i) :
    (i.peek 0).kind ≠ .eof := by
  cases labelled with
  | true =>
    rw [h.1.1]
    exact Kind.noConfusion
  | false =>
    rw [((isSosType_iff _).1 h.1).1]
    exact Kind.noConfusion

theorem wraps_sosSet (labelled : Bool) :
    Wraps K n (AtSosSet labelled) (sosSet labelled) (At Grammar.statementEnd) := by
  cases labelled with
  | true =>
    refine .of_node rfl (hK _ rfl) fun m _ => ?_
    refine .bind (Q := fun _ => AtSosType)
      (.post (spec_label (R := AtSosType) hK inline_colon ?_) ?_) fun _ => spec_sosTail hK
    · rintro i j ⟨_, h₂, h₃⟩ _ hp
      rw [AtSosType, hp 0, hp 1]
      exact ⟨h₂, h₃⟩
    · rintro _ j (⟨⟨h, _⟩, hnot⟩ | ⟨_, h⟩)
      · exact absurd h hnot
      · exact h
  | false => exact .of_node rfl (hK _ rfl) fun m _ => spec_sosTail hK

/-- Whether a set with a label comes next, and whether one without. -/
def sosAhead (i : Input) : Bool × Bool :=
  ((i.peek 1).kind == .colon && isSosType (i.peek 2) && (i.peek 3).kind == .colon2,
    isSosType (i.peek 0) && (i.peek 1).kind == .colon2)

omit hK in
theorem steady_sosAhead : SteadyOn (fun i => (i.peek 0).kind = .ident) sosAhead := by
  intro C i i' hC hi hk
  have h₀ : Grammar.statementEnd.contains (i.peek 0).kind = false := by
    rw [hk]
    rfl
  have h₁ := hi.peek_of_lt hC 1 fun m hm => by
    obtain rfl : m = 0 := by omega
    exact h₀
  have hlabelled : ((i'.peek 1).kind == .colon && isSosType (i'.peek 2) &&
      (i'.peek 3).kind == .colon2) = ((i.peek 1).kind == .colon && isSosType (i.peek 2) &&
      (i.peek 3).kind == .colon2) := by
    rw [h₁.kind]
    -- every further token counts only if the one before it is inside the line
    by_cases hc : (i.peek 1).kind = .colon
    · have h₂ := hi.peek_of_lt hC 2 fun m hm => by
        obtain rfl | rfl : m = 0 ∨ m = 1 := by omega
        · exact h₀
        · rw [hc]
          rfl
      rw [h₂.sosType]
      by_cases ht : isSosType (i.peek 2) = true
      · have h₃ := hi.peek_of_lt hC 3 fun m hm => by
          obtain rfl | rfl | rfl : m = 0 ∨ m = 1 ∨ m = 2 := by omega
          · exact h₀
          · rw [hc]
            rfl
          · rw [((isSosType_iff _).1 ht).1]
            rfl
        rw [h₃.kind]
      · rw [Bool.eq_false_iff.2 ht, Bool.and_false]
        rfl
    · rw [beq_eq_false_iff_ne.2 hc]
      rfl
  rw [sosAhead, sosAhead, hlabelled, h₁.kind, (hi.peek_zero hC).sosType]

omit hK in
theorem atSosSet_of_sosAhead {i : Input} (hk : (i.peek 0).kind = .ident)
    (ha : (sosAhead i).1 = true ∨ (sosAhead i).2 = true) : AtSosSet (sosAhead i).1 i := by
  cases hl : (sosAhead i).1 with
  | true =>
    simp only [sosAhead, Bool.and_eq_true, beq_iff_eq] at hl
    refine ⟨⟨hk, ?_⟩, hl.1.2, hl.2⟩
    rw [hl.1.1]
    rfl
  | false =>
    have hb := ha.resolve_left (by simp [hl])
    simp only [sosAhead, Bool.and_eq_true, beq_iff_eq] at hb
    exact hb

theorem spec_sosItem :
    Spec K n (fun i => (i.peek 0).kind = .ident) sosItem fun _ => Ended n := by
  change Spec K n _ ((fun i => ⟨sosAhead i, {}, i⟩ : Rule (Bool × Bool)) >>= fun a =>
    if a.1 = true ∨ a.2 = true then sosSet a.1
    else atSosEntry >>= fun b => if b = true then sosEntries >>= fun _ => endOfStatement
      else recover .sosSetOrEntry) _
  refine .bind (.test steady_sosAhead) fun a => .ite (fun ha => ?_) fun _ =>
    spec_ifAtSosEntry ?_ ?_
  · refine ((wraps_sosSet hK a.1).spec (stable_atSosSet _) fun i => ne_eof_of_atSosSet).pre ?_
    rintro i ⟨hk, rfl⟩
    exact atSosSet_of_sosAhead hk ha
  · refine .bind (.pre (P := AtLabel colon) (spec_sosEntries hK) fun i h => h.2) fun _ =>
      (spec_endOfStatement hK).pre ?_
    rintro i ⟨h | h, hnot⟩
    · exact absurd h hnot
    · exact h
  · refine Spec.recover hK.skips _ ?_
    rintro i ⟨⟨hk, _⟩, _⟩
    refine .inl ?_
    rw [At, hk]
    decide

/-! ## All statements -/

/-- All statements but those of SOS sections are single nodes. -/
theorem wraps_statementBody {rule : StatementRule} (hrule : rule ≠ .sos) (hnl : K .newline) :
    Wraps K n (At rule.first) (statementBody rule) (At Grammar.statementEnd) := by
  cases rule with
  | implicit => exact labelled_implicit.wraps hK hnl
  | objective => exact labelled_objective.wraps hK hnl
  | constraint => exact labelled_constraint.wraps hK hnl
  | bound => exact wraps_bound hK
  | declaration => exact wraps_declaration hK
  | sos => exact absurd rfl hrule

omit hK in
theorem inline_first (rule : StatementRule) : ∀ k, rule.first.contains k = true → k.isInline = true := by
  cases rule with
  | sos => exact inline_ofList (by decide)
  | declaration => exact inline_variableFirst
  | _ => exact inline_termFirst

omit hK in
theorem eq_ident_of_first {i : Input} (h : At StatementRule.sos.first i) : (i.peek 0).kind = .ident := by
  have : (i.peek 0).kind = .ident ∨ (i.peek 0).kind ∈ [] :=
    List.mem_cons.1 (List.contains_iff_mem.1 h)
  simpa using this

theorem spec_statementBody (rule : StatementRule) (hnl : rule ≠ .sos → K .newline) :
    Spec K n (At rule.first) (statementBody rule) fun _ => Ended n := by
  by_cases hrule : rule = .sos
  · subst hrule
    exact (spec_sosItem hK).pre fun i h => eq_ident_of_first h
  · refine (wraps_statementBody hK hrule (hnl hrule)).spec (stable_at _) fun i h => ?_
    exact ne_eof_of_inline (inline_first rule _ h)

/-- A statement without the safeguard against standing still. -/
def statementChoice (rule : StatementRule) : Rule Unit := do
  if ← atSet rule.first then statementBody rule else recover rule.expected

/-- The safeguard: if nothing was taken since a count, the next token is skipped. -/
def safeguard (rule : StatementRule) (before : Nat) : Rule Unit := do
  if (← taken) = before ∧ (← current) ≠ .eof then skipToken rule.expected

theorem spec_statementChoice (rule : StatementRule) (hnl : rule ≠ .sos → K .newline) :
    Spec K n (fun i => ¬ At Grammar.statementEnd i) (statementChoice rule) fun _ => Ended n := by
  refine .ifAt ((spec_statementBody hK rule hnl).pre fun i h => h.2) ?_
  exact Spec.recover hK.skips _ fun i h => .inl h.1

end Statement

/-- **The safeguard is never needed**: a statement takes a token by itself. -/
theorem statement_eq (rule : StatementRule) {i : Input} (hi : i.Proper)
    (h : ¬ At Grammar.statementEnd i) : statement rule i = statementChoice rule i := by
  have hspec := spec_statementChoice (K := fun _ => True) (n := i.taken) (fun _ _ => trivial) rule
    (fun _ => trivial) i hi (Nat.le_refl _) h
  have htaken : ¬ ((statementChoice rule i).rest.taken = i.taken ∧
      ((statementChoice rule i).rest.peek 0).kind ≠ .eof) := by
    have := hspec.post.1
    omega
  have hseq : statement rule i = (statementChoice rule >>= fun _ => safeguard rule i.taken) i := by
    have hchoice : statementChoice rule i = (if rule.first.contains (i.peek 0).kind = true then
      statementBody rule else recover rule.expected) i := rfl
    change (if rule.first.contains (i.peek 0).kind = true then
      statementBody rule >>= fun _ => safeguard rule i.taken
      else recover rule.expected >>= fun _ => safeguard rule i.taken) i = _
    rw [bind_run, hchoice]
    split_ifs
    · rfl
    · rfl
  have hstill : safeguard rule i.taken (statementChoice rule i).rest =
      ⟨(), {}, (statementChoice rule i).rest⟩ := by
    change (if (statementChoice rule i).rest.taken = i.taken ∧
      ((statementChoice rule i).rest.peek 0).kind ≠ .eof then skipToken rule.expected
      else pure ()) _ = _
    rw [if_neg htaken]
    rfl
  rw [hseq, bind_run, hstill, Output.append_empty]

/-- **A statement takes something and ends where a statement can end.** -/
theorem spec_statement (hK : Inline K) (rule : StatementRule) (hnl : rule ≠ .sos → K .newline) :
    Spec K n (fun i => ¬ At Grammar.statementEnd i) (statement rule) fun _ => Ended n := by
  intro i hi hn h
  have hchoice := spec_statementChoice hK rule hnl i hi hn h
  have heq := statement_eq rule hi h
  refine ⟨heq ▸ hchoice.trace, heq ▸ hchoice.post, fun C i' hC hi' hl => ?_⟩
  have h' : ¬ At Grammar.statementEnd i' := by
    rwa [steady_at _ C i i' hC hi']
  rw [heq] at hl ⊢
  rw [statement_eq rule hi'.proper' h']
  exact hchoice.alike C i' hC hi' hl

/-! ## How a statement begins -/

section Opening

variable {i : Input} {v us : List Token} {t : Token}

/-- What is skipped of a statement: a report and one node. -/
theorem recover_run (e : Expected) (h : ¬ At Grammar.statementEnd i) :
    recover e i = ⟨(), ⟨[], [⟨.unexpected e (found (i.peek 0)), (i.peek 0).span⟩],
      [⟨(i.peek 0).span, e⟩]⟩ ++ (node .errorNode toStatementEnd i).output,
      (node .errorNode toStatementEnd i).rest⟩ := by
  have h' : ¬ Grammar.statementEnd.contains (i.peek 0).kind = true := h
  change (if Grammar.statementEnd.contains (i.peek 0).kind = true then missing e else _) i = _
  rw [if_neg h']
  rfl

theorem wraps_skipped : Wraps (fun _ => True) n (fun i => ¬ At Grammar.statementEnd i)
    (node .errorNode toStatementEnd) (At Grammar.statementEnd) :=
  .of_node rfl trivial fun _ _ => .toStatementEnd fun _ _ _ => trivial

theorem stable_not_at (s : KindSet) : Stable fun i => ¬ At s i :=
  fun i j hp _ h hj => h (by rwa [At, ← hp 0])

variable (hi : i.Proper) (hn : i.Next v t us) (hv : v.filterMap commentDiagnostic? = [])

include hi hn hv

theorem recover_opens (e : Expected) (h : ¬ At Grammar.statementEnd i) :
    Opens (recover e) i v t us [] := by
  obtain ⟨⟨k, g, hk, he⟩, hadvance⟩ := wraps_skipped.opens (stable_not_at _) hi h hn
  have hpeek : (i.advance (t :: us)).peek 0 = i.peek 0 := hn.peek_advance 0
  have h' : ¬ At Grammar.statementEnd (i.advance (t :: us)) := by rwa [At, hpeek]
  refine ⟨⟨k, g, hk, ?_⟩, ?_⟩
  · rw [recover_run e h]
    exact he
  · rw [recover_run e h, recover_run e h', hadvance, hpeek]
    -- the comments among the trivia are closed, so the report comes first either way
    congr 1
    ext1
    · rfl
    · simp [Output.trivia, hv]
    · rfl

omit hi hv in
theorem atLabel_advance (separators : KindSet) :
    AtLabel separators (i.advance (t :: us)) ↔ AtLabel separators i := by
  rw [AtLabel, AtLabel, show (i.advance (t :: us)).peek 0 = i.peek 0 from hn.peek_advance 0,
    show (i.advance (t :: us)).peek 1 = i.peek 1 from hn.peek_advance 1]

omit hi hn hv in
/-- Entries: the first of them, and what comes after it. -/
theorem entries_run (hi : i.Proper) (h : AtLabel colon i) :
    (sosEntries >>= fun _ => endOfStatement) i = (sosEntry >>= fun _ => sosEntries >>= fun _ =>
      endOfStatement) i := by
  have hspec := spec_sosEntry (K := fun _ => True) (n := i.taken) (fun _ _ => trivial) i hi
    (Nat.le_refl _) h
  have hstep : sosEntriesStep i = ⟨true, (sosEntry i).output, (sosEntry i).rest⟩ := by
    change (if ((i.peek 0).kind == .ident && (i.peek 1).kind == .colon) = true then
      sosEntry >>= fun _ => pure true else pure false : Rule Bool) i = _
    rw [if_pos ((atLabel_colon_iff i).1 h), bind_pure_run]
  have hlt := hspec.length_lt hspec.post
  have hloop := @repeatWhile_pos i sosEntriesStep (by rw [hstep]) (by simpa only [hstep] using hlt)
  rw [hstep, ← sosEntries_eq] at hloop
  rw [bind_run, hloop, bind_run, bind_run, Output.append_assoc]

theorem sosItem_opens (hk : (i.peek 0).kind = .ident) : ∃ more, Opens sosItem i v t us more := by
  have hpeek : ∀ m, (i.advance (t :: us)).peek m = i.peek m := hn.peek_advance
  have hahead : sosAhead (i.advance (t :: us)) = sosAhead i := by simp only [sosAhead, hpeek]
  have hrun : ∀ j, sosItem j = (if (sosAhead j).1 = true ∨ (sosAhead j).2 = true then
      sosSet (sosAhead j).1
    else atSosEntry >>= fun b => if b = true then sosEntries >>= fun _ => endOfStatement
      else recover .sosSetOrEntry) j := fun j => rfl
  have hset : (sosAhead i).1 = true ∨ (sosAhead i).2 = true → AtSosSet (sosAhead i).1 i :=
    atSosSet_of_sosAhead hk
  have hnot : ¬ At Grammar.statementEnd i := by
    rw [At, hk]
    decide
  have hinline : Inline fun _ => True := fun _ _ => trivial
  by_cases hs : (sosAhead i).1 = true ∨ (sosAhead i).2 = true
  · obtain ⟨⟨k, g, hk, he⟩, hadvance⟩ :=
      (wraps_sosSet hinline _).opens (stable_atSosSet _) hi (hset hs) hn
    refine ⟨[], ⟨k, g, hk, ?_⟩, ?_⟩
    · rw [hrun, if_pos hs]
      exact he
    · rw [hrun, hrun, hahead, if_pos hs]
      exact hadvance
  · have hrun' : ∀ j, sosAhead j = sosAhead i → sosItem j =
        (if ((j.peek 0).kind == .ident && (j.peek 1).kind == .colon) = true then
          sosEntries >>= fun _ => endOfStatement else recover .sosSetOrEntry) j := by
      intro j hj
      rw [hrun, hj, if_neg hs]
      rfl
    by_cases hl : AtLabel colon i
    · have hentry := spec_sosEntry (K := fun _ => True) hinline (n := i.taken) i hi (Nat.le_refl _) hl
      have hmore : Conforms (fun _ => True) i.taken (sosEntries >>= fun _ => endOfStatement)
          (fun _ => Ended i.taken) (sosEntry i).rest := by
        refine Spec.bind (spec_sosEntries (P := fun j => i.taken < j.taken) hinline) (fun _ =>
          (spec_endOfStatement hinline).pre ?_) _ (hentry.proper hi) hentry.taken_le hentry.post
        rintro j ⟨h | h, _⟩
        · exact h
        · exact h
      obtain ⟨xs, more, _, hmore⟩ := hmore.trace
      obtain ⟨⟨k, g, hk, he⟩, hadvance⟩ :=
        ((wraps_sosEntry (K := fun _ => True) hinline).opens (stable_atLabel _) hi hl hn).bind hmore
      have hl' := (atLabel_advance hn colon).2 hl
      have hi' : (i.advance (t :: us)).Proper := hi.of_suffix rfl ⟨v, hn.tokens.symm⟩
      refine ⟨more, ⟨k, g, hk, ?_⟩, ?_⟩
      · rw [hrun' i rfl, if_pos ((atLabel_colon_iff i).1 hl), entries_run hi hl]
        exact he
      · rw [hrun' i rfl, hrun' _ hahead, if_pos ((atLabel_colon_iff i).1 hl),
          if_pos ((atLabel_colon_iff _).1 hl'), entries_run hi hl, entries_run hi' hl']
        exact hadvance
    · obtain ⟨⟨k, g, hk, he⟩, hadvance⟩ := recover_opens hi hn hv .sosSetOrEntry hnot
      have hl' := mt (atLabel_advance hn colon).1 hl
      refine ⟨[], ⟨k, g, hk, ?_⟩, ?_⟩
      · rw [hrun' i rfl, if_neg (mt (atLabel_colon_iff i).2 hl)]
        exact he
      · rw [hrun' i rfl, hrun' _ hahead, if_neg (mt (atLabel_colon_iff i).2 hl),
          if_neg (mt (atLabel_colon_iff _).2 hl')]
        exact hadvance

/-- **A statement starts with a node**, and is that node unless it is a line of SOS entries. -/
theorem statement_opens (rule : StatementRule) (h : ¬ At Grammar.statementEnd i) :
    ∃ more, Opens (statement rule) i v t us more ∧ (rule ≠ .sos → more = []) := by
  have hpeek : (i.advance (t :: us)).peek 0 = i.peek 0 := hn.peek_advance 0
  have hi' : (i.advance (t :: us)).Proper := hi.of_suffix rfl ⟨v, hn.tokens.symm⟩
  have h' : ¬ At Grammar.statementEnd (i.advance (t :: us)) := by rwa [At, hpeek]
  -- both inputs take the same branch, so what holds of the branch holds of the statement
  have hopens : ∀ {p : Rule Unit} {more : List Skeleton}, (∀ j, j.peek 0 = i.peek 0 →
      statementChoice rule j = p j) → Opens p i v t us more →
      Opens (statement rule) i v t us more := by
    intro p more hp ho
    have hs : statement rule i = p i := (statement_eq rule hi h).trans (hp i rfl)
    have hs' : statement rule (i.advance (t :: us)) = p (i.advance (t :: us)) :=
      (statement_eq rule hi' h').trans (hp _ hpeek)
    refine ⟨?_, ?_⟩
    · rw [hs]
      exact ho.forest
    · rw [hs, hs']
      exact ho.advance
  by_cases hf : rule.first.contains (i.peek 0).kind = true
  · have hp : ∀ j : Input, j.peek 0 = i.peek 0 → statementChoice rule j = statementBody rule j := by
      intro j hj
      change (if rule.first.contains (j.peek 0).kind = true then statementBody rule
        else recover rule.expected) j = _
      rw [hj, if_pos hf]
    by_cases hrule : rule = .sos
    · subst hrule
      obtain ⟨more, ho⟩ := sosItem_opens hi hn hv (eq_ident_of_first hf)
      exact ⟨more, hopens hp ho, fun hne => absurd rfl hne⟩
    · refine ⟨[], hopens hp ?_, fun _ => rfl⟩
      exact (wraps_statementBody (K := fun _ => True) (fun _ _ => trivial) hrule trivial).opens
        (stable_at _) hi hf hn
  · refine ⟨[], hopens (fun j hj => ?_) (recover_opens hi hn hv rule.expected h), fun _ => rfl⟩
    change (if rule.first.contains (j.peek 0).kind = true then statementBody rule
      else recover rule.expected) j = _
    rw [hj, if_neg hf]

end Opening

end LpFormat.Rule
