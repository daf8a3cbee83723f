import LpFormat.Proofs.Parsing.Trace

/-!
# Two inputs side by side

Rules see kinds of tokens and little else. Two inputs whose tokens agree in what rules see, up to a
place where every statement ends, are read alike up to that place; the spans in the outputs move with
the tokens.

* `Parallel`: how offsets move, where texts may differ, and what is left of the two inputs at the
  place where they part;
* `Parallel.Tokens`, `Parallel.Diagnostics`, `Parallel.Outputs`, `Parallel.Inputs`: what
  corresponds to what, and `Parallel.Tokens.of_same`: tokens of one kind and text do;
* `Parallel.Aligned`, `Parallel.Fenced`: rules that look past the place where the inputs part see
  the same there;
* `Parallel.Inputs.peek_zero`, `Parallel.Inputs.peek_of_lt`: tokens ahead that correspond;
* `Parallel.Inputs.next`: taking a token keeps inputs in correspondence.
-/

namespace LpFormat

/-- Whether a token is the word that frees a variable. -/
def Token.isFree (t : Token) : Bool := t.kind == .ident && Grammar.isFree t.text

/-- Whether a token is a block comment without its closing mark. -/
def Token.isUnclosed (t : Token) : Bool := t.kind == .blockComment && !isClosedComment t.text

theorem commentDiagnostic?_eq (t : Token) : Rule.commentDiagnostic? t =
    if t.isUnclosed = true then some ⟨.unclosedComment, t.span⟩ else none := by
  simp [Rule.commentDiagnostic?, Token.isUnclosed]

/-- How two inputs are compared. -/
structure Parallel where
  /-- Where an offset of the first input is found in the second. -/
  move : Nat → Nat
  /-- The spans of tokens whose texts may differ. -/
  blurred : Span → Prop
  /-- The tokens of the first input past the place where the inputs part. -/
  tail : List Token
  /-- The tokens of the second input past that place. -/
  tail' : List Token

namespace Parallel

/-- Tokens that rules cannot tell apart. -/
structure Tokens (C : Parallel) (t t' : Token) : Prop where
  kind : t'.kind = t.kind
  span : t'.span = t.span.map C.move
  free : t'.isFree = t.isFree
  sosType : Rule.isSosType t' = Rule.isSosType t
  signed : Rule.isSignedLiteral t' = Rule.isSignedLiteral t
  unclosed : t'.isUnclosed = t.isUnclosed
  text : t'.text = t.text ∨ C.blurred t.span

/-- Diagnostics of one problem at places that correspond. -/
structure Diagnostics (C : Parallel) (d d' : Diagnostic) : Prop where
  span : d'.span = d.span.map C.move
  problem : d'.problem = d.problem ∨ C.blurred d.span

/-- Outputs that differ by the move only. -/
structure Outputs (C : Parallel) (o o' : Output) : Prop where
  events : o'.events = o.events.map (Event.move C.move)
  diagnostics : List.Forall₂ C.Diagnostics o.diagnostics o'.diagnostics

variable {C : Parallel}

/-- Tokens of one kind and text correspond. -/
theorem Tokens.of_same {t t' : Token} (hk : t'.kind = t.kind) (ht : t'.text = t.text)
    (hs : t'.span = t.span.map C.move) : C.Tokens t t' := by
  refine ⟨hk, hs, ?_, ?_, ?_, ?_, .inl ht⟩
  · rw [Token.isFree, Token.isFree, hk, ht]
  · rw [Rule.isSosType, Rule.isSosType, hk, ht]
  · rw [Rule.isSignedLiteral, Rule.isSignedLiteral, hk, ht]
  · rw [Token.isUnclosed, Token.isUnclosed, hk, ht]

/-! ## Outputs -/

namespace Outputs

theorem empty : C.Outputs {} {} := ⟨rfl, .nil⟩

theorem append {o o' p p' : Output} (ho : C.Outputs o o') (hp : C.Outputs p p') :
    C.Outputs (o ++ p) (o' ++ p') := by
  refine ⟨?_, List.rel_append ho.diagnostics hp.diagnostics⟩
  rw [Output.events_append, Output.events_append, ho.events, hp.events, List.map_append]

theorem enclosed (kind : Kind) {o o' : Output} (h : C.Outputs o o') :
    C.Outputs (.enclosed kind o) (.enclosed kind o') := by
  refine ⟨?_, h.diagnostics⟩
  simp only [Output.enclosed, h.events, List.map_cons, List.map_append]
  rfl

theorem token (kind : Kind) {t t' : Token} (h : C.Tokens t t') :
    C.Outputs (.token kind t.span) (.token kind t'.span) := by
  refine ⟨?_, .nil⟩
  rw [h.span]
  rfl

theorem comments {v v' : List Token} (h : List.Forall₂ C.Tokens v v') :
    List.Forall₂ C.Diagnostics (v.filterMap Rule.commentDiagnostic?)
      (v'.filterMap Rule.commentDiagnostic?) := by
  induction h with
  | nil => exact .nil
  | @cons t t' v v' ht _ ih =>
    rw [List.filterMap_cons, List.filterMap_cons, commentDiagnostic?_eq, commentDiagnostic?_eq,
      ht.unclosed]
    by_cases hu : t.isUnclosed = true
    · simp only [hu, if_true]
      exact .cons ⟨ht.span, .inl rfl⟩ ih
    · simp only [hu]
      exact ih

theorem trivia {v v' : List Token} (h : List.Forall₂ C.Tokens v v') :
    C.Outputs (.trivia v) (.trivia v') := by
  refine ⟨?_, comments h⟩
  induction h with
  | nil => rfl
  | cons ht _ ih =>
    simp only [Output.trivia, List.map_cons] at ih ⊢
    rw [ih, ht.kind, ht.span]
    rfl

theorem report {d d' : Diagnostic} (h : C.Diagnostics d d') :
    C.Outputs (.report d) (.report d') := ⟨rfl, .cons h .nil⟩

end Outputs

/-! ## Inputs -/

/-- Past the place where the inputs part both have tokens of one kind, the same number of line ends,
and tokens of one kind after those. -/
structure Aligned (C : Parallel) : Prop where
  kind : ∀ e e' : Token, e.kind = .eof → e'.kind = .eof →
    (Input.nth e' 0 C.tail').kind = (Input.nth e 0 C.tail).kind
  run : Input.newlineRun C.tail' = Input.newlineRun C.tail
  beyond : ∀ e e' : Token, e.kind = .eof → e'.kind = .eof →
    (Input.nth e' (Input.newlineRun C.tail) C.tail').kind =
      (Input.nth e (Input.newlineRun C.tail) C.tail).kind

/-- Past the place where the inputs part a statement ends, and both have the same there. -/
structure Fenced (C : Parallel) : Prop extends C.Aligned where
  stop : ∀ e : Token, e.kind = .eof →
    Grammar.statementEnd.contains (Input.nth e 0 C.tail).kind = true

/-- Inputs that never part. -/
theorem fenced_nil (h : C.tail = []) (h' : C.tail' = []) : C.Fenced := by
  refine ⟨⟨?_, by rw [h, h'], ?_⟩, ?_⟩
  · intro e e' he he'
    rw [h, h', Input.nth, Input.nth, he, he']
  · intro e e' he he'
    rw [h, h', Input.nth, Input.nth, he, he']
  · intro e he
    rw [h, Input.nth, he]
    rfl

/-- Inputs that correspond up to the place where they part. -/
structure Inputs (C : Parallel) (i i' : Input) : Prop where
  tokens : ∃ w w', i.tokens = w ++ C.tail ∧ i'.tokens = w' ++ C.tail' ∧ List.Forall₂ C.Tokens w w'
  takenEnd : i'.takenEnd = C.move i.takenEnd
  proper : i.Proper
  proper' : i'.Proper

/-- Tokens seen ahead: they correspond, or both are the end of a statement where the inputs part. -/
def Seen (C : Parallel) (t t' : Token) : Prop :=
  C.Tokens t t' ∨ t'.kind = t.kind ∧ Grammar.statementEnd.contains t.kind = true

namespace Seen

variable {t t' : Token}

theorem kind (h : C.Seen t t') : t'.kind = t.kind := h.elim Tokens.kind And.left

theorem not_ident (h : Grammar.statementEnd.contains t.kind = true) : (t.kind == .ident) = false := by
  rw [beq_eq_false_iff_ne]
  intro hk
  rw [hk] at h
  cases h

theorem free (h : C.Seen t t') : t'.isFree = t.isFree := by
  rcases h with h | ⟨hk, hs⟩
  · exact h.free
  · rw [Token.isFree, Token.isFree, hk, not_ident hs]
    rfl

theorem sosType (h : C.Seen t t') : Rule.isSosType t' = Rule.isSosType t := by
  rcases h with h | ⟨hk, hs⟩
  · exact h.sosType
  · rw [Rule.isSosType, Rule.isSosType, hk, not_ident hs]
    rfl

theorem signed (h : C.Seen t t') : Rule.isSignedLiteral t' = Rule.isSignedLiteral t := by
  rcases h with h | ⟨hk, hs⟩
  · exact h.signed
  · rw [Rule.isSignedLiteral, Rule.isSignedLiteral, hk, Grammar.not_literals_of_statementEnd hs]
    rfl

end Seen

theorem AllTrivia.of_forall₂ {v v' : List Token} (h : List.Forall₂ C.Tokens v v')
    (hv : AllTrivia v) : AllTrivia v' := by
  induction h with
  | nil => exact allTrivia_nil
  | cons ht _ ih =>
    obtain ⟨h₁, h₂⟩ := List.forall_mem_cons.1 hv
    exact List.forall_mem_cons.2 ⟨ht.kind ▸ h₁, ih h₂⟩

theorem forall₂_append_left {α β : Type} {R : α → β → Prop} {a b : List α} {l : List β}
    (h : List.Forall₂ R (a ++ b) l) :
    ∃ a' b', l = a' ++ b' ∧ List.Forall₂ R a a' ∧ List.Forall₂ R b b' := by
  induction a generalizing l with
  | nil => exact ⟨[], l, rfl, .nil, h⟩
  | cons x a ih =>
    cases h with
    | cons hx h =>
      obtain ⟨a', b', rfl, ha, hb⟩ := ih h
      exact ⟨_ :: a', b', rfl, .cons hx ha, hb⟩

section Fence

variable (hf : C.Fenced) {w w' : List Token} (h : List.Forall₂ C.Tokens w w') {e e' : Token}
  (he : e.kind = .eof) (he' : e'.kind = .eof)

include hf h he he'

/-- Tokens ahead correspond as long as no end of a statement stands in front of them. -/
theorem seen_nth (n : Nat) (hn : ∀ m < n,
    Grammar.statementEnd.contains (Input.nth e m (w ++ C.tail)).kind = false) :
    C.Seen (Input.nth e n (w ++ C.tail)) (Input.nth e' n (w' ++ C.tail')) := by
  induction h generalizing n with
  | nil =>
    cases n with
    | zero => exact .inr ⟨hf.kind e e' he he', hf.stop e he⟩
    | succ n =>
      have := hn 0 (Nat.succ_pos n)
      rw [List.nil_append, hf.stop e he] at this
      cases this
  | @cons t t' w w' ht _ ih =>
    by_cases htr : t.kind.isTrivia = true
    · rw [List.cons_append, List.cons_append, Input.nth_cons_trivia htr,
        Input.nth_cons_trivia (ht.kind ▸ htr)]
      refine ih n fun m hm => ?_
      have := hn m hm
      rwa [List.cons_append, Input.nth_cons_trivia htr] at this
    · have hsig : t.kind.isTrivia = false := by simpa using htr
      have hsig' : t'.kind.isTrivia = false := by rwa [ht.kind]
      cases n with
      | zero =>
        rw [List.cons_append, List.cons_append, Input.nth_zero_cons hsig,
          Input.nth_zero_cons hsig']
        exact .inl ht
      | succ n =>
        rw [List.cons_append, List.cons_append, Input.nth_succ_cons hsig,
          Input.nth_succ_cons hsig']
        refine ih n fun m hm => ?_
        have := hn (m + 1) (Nat.succ_lt_succ hm)
        rwa [List.cons_append, Input.nth_succ_cons hsig] at this

end Fence

section Ahead

variable (ha : C.Aligned) {w w' : List Token} (h : List.Forall₂ C.Tokens w w') {e e' : Token}
  (he : e.kind = .eof) (he' : e'.kind = .eof)

include ha h he he'

theorem kind_nth_zero :
    (Input.nth e' 0 (w' ++ C.tail')).kind = (Input.nth e 0 (w ++ C.tail)).kind := by
  induction h with
  | nil => exact ha.kind e e' he he'
  | @cons t t' w w' ht _ ih =>
    by_cases htr : t.kind.isTrivia = true
    · rw [List.cons_append, List.cons_append, Input.nth_cons_trivia htr,
        Input.nth_cons_trivia (ht.kind ▸ htr)]
      exact ih
    · have hsig : t.kind.isTrivia = false := by simpa using htr
      rw [List.cons_append, List.cons_append, Input.nth_zero_cons hsig,
        Input.nth_zero_cons (by rwa [ht.kind])]
      exact ht.kind

/-- As many line ends are next in both inputs, and tokens of one kind after them. -/
theorem newlineRun_eq : Input.newlineRun (w' ++ C.tail') = Input.newlineRun (w ++ C.tail) ∧
    (Input.nth e' (Input.newlineRun (w ++ C.tail)) (w' ++ C.tail')).kind =
      (Input.nth e (Input.newlineRun (w ++ C.tail)) (w ++ C.tail)).kind := by
  induction h with
  | nil => exact ⟨ha.run, ha.beyond e e' he he'⟩
  | @cons t t' w w' ht _ ih =>
    simp only [List.cons_append, Input.newlineRun, ht.kind]
    by_cases htr : t.kind.isTrivia = true
    · rw [if_pos htr, if_pos htr, Input.nth_cons_trivia htr,
        Input.nth_cons_trivia (ht.kind ▸ htr)]
      exact ih
    · have hsig : t.kind.isTrivia = false := by simpa using htr
      have hsig' : t'.kind.isTrivia = false := by rwa [ht.kind]
      rw [if_neg htr, if_neg htr]
      split_ifs with hnl
      · refine ⟨congrArg (1 + ·) ih.1, ?_⟩
        rw [Nat.add_comm 1, Input.nth_succ_cons hsig, Input.nth_succ_cons hsig']
        exact ih.2
      · rw [Input.nth_zero_cons hsig, Input.nth_zero_cons hsig']
        exact ⟨rfl, ht.kind⟩

end Ahead

namespace Inputs

variable {i i' : Input}

/-- Where fewer tokens are ahead in one input, fewer are ahead in the other. -/
theorem length_lt {j j' : Input} (hi : C.Inputs i i') (hj : C.Inputs j j')
    (h : j.tokens.length < i.tokens.length) : j'.tokens.length < i'.tokens.length := by
  obtain ⟨w, w', h₁, h₂, h₃⟩ := hi.tokens
  obtain ⟨x, x', h₄, h₅, h₆⟩ := hj.tokens
  rw [h₁, h₄, List.length_append, List.length_append, h₃.length_eq, h₆.length_eq] at h
  rw [h₂, h₅, List.length_append, List.length_append]
  omega

section Ahead

variable (h : C.Inputs i i') (hf : C.Fenced)

include h hf

theorem peek_of_lt (n : Nat)
    (hn : ∀ m < n, Grammar.statementEnd.contains (i.peek m).kind = false) :
    C.Seen (i.peek n) (i'.peek n) := by
  obtain ⟨w, w', hi, hi', hw⟩ := h.tokens
  simp only [Input.peek, hi, hi'] at hn ⊢
  exact seen_nth hf hw h.proper.eof h.proper'.eof n hn

theorem peek_zero : C.Seen (i.peek 0) (i'.peek 0) :=
  h.peek_of_lt hf 0 fun _ hm => absurd hm (Nat.not_lt_zero _)

theorem continues : Input.newlineRun i'.tokens = Input.newlineRun i.tokens ∧
    (i'.peek (Input.newlineRun i.tokens)).kind = (i.peek (Input.newlineRun i.tokens)).kind := by
  obtain ⟨w, w', hi, hi', hw⟩ := h.tokens
  simp only [Input.peek, hi, hi']
  exact newlineRun_eq hf.toAligned hw h.proper.eof h.proper'.eof

end Ahead

/-- The next token is not past the place where the inputs part, if that place is still ahead
behind it. -/
theorem next (h : C.Inputs i i') {v us : List Token} {t : Token} (hn : i.Next v t us)
    (hl : C.tail.length ≤ us.length) : ∃ v' t' us', i'.Next v' t' us' ∧
      List.Forall₂ C.Tokens v v' ∧ C.Tokens t t' ∧ C.Inputs (i.after t us) (i'.after t' us') ∧
      C.Inputs (i.advance (t :: us)) (i'.advance (t' :: us')) := by
  obtain ⟨w, w', hi, hi', hw⟩ := h.tokens
  obtain ⟨x, rfl⟩ : ∃ x, us = x ++ C.tail := by
    have hsuffix : C.tail <:+ v ++ t :: us := ⟨w, by rw [← hi, hn.tokens]⟩
    have : us <:+ v ++ t :: us := ⟨v ++ [t], by simp⟩
    obtain ⟨x, hx⟩ := List.suffix_of_suffix_length_le hsuffix this hl
    exact ⟨x, hx.symm⟩
  have hw' : w = v ++ t :: x := by
    have := hi.symm.trans hn.tokens
    rw [← List.cons_append, ← List.append_assoc] at this
    exact List.append_cancel_right this
  subst hw'
  obtain ⟨v', y, rfl, hv, hy⟩ := forall₂_append_left hw
  cases hy with
  | @cons _ t' _ x' ht hx =>
    have hi'' : i'.tokens = v' ++ t' :: (x' ++ C.tail') := by rw [hi', List.append_assoc]; rfl
    have hnext : i'.Next v' t' (x' ++ C.tail') :=
      ⟨hi'', AllTrivia.of_forall₂ hv hn.trivia, ht.kind ▸ hn.significant⟩
    refine ⟨v', t', x' ++ C.tail', hnext, hv, ht, ⟨⟨x, x', rfl, rfl, hx⟩, ?_, ?_, ?_⟩,
      ⟨⟨t :: x, t' :: x', rfl, rfl, .cons ht hx⟩, h.takenEnd, ?_, ?_⟩⟩
    · change t'.span.stop = _
      rw [ht.span]
      rfl
    · exact h.proper.of_suffix rfl ⟨v ++ [t], by rw [hn.tokens]; simp [Input.after]⟩
    · exact h.proper'.of_suffix rfl ⟨v' ++ [t'], by rw [hi'']; simp [Input.after]⟩
    · exact h.proper.of_suffix rfl ⟨v, hn.tokens.symm⟩
    · exact h.proper'.of_suffix rfl ⟨v', hi''.symm⟩

end Inputs

end Parallel

end LpFormat
