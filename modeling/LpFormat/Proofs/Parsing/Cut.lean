import LpFormat.Proofs.Parsing.Lead

/-!
# Inputs that are cut off

A rule that stops at some place does so for what it sees there, and never takes the end of input for
something to go on with. So it reads the input alike when the input ends at that place.

* `Parallel.Severed`: the second input ends where a statement of the first one ends;
* `Parallel.Inputs.inside_or_past`, `Parallel.Glimpsed`: what is next in the two inputs;
* `Rule.Cuts`: rules that read an input that is cut off behind them alike, with a lemma for each way
  to build them;
* **`Rule.cuts_sosEntry`**, **`Rule.statement_cut`**: entries and statements.
-/

namespace LpFormat

namespace Parallel

variable {C : Parallel} {i i' : Input}

/-- The second input ends where the inputs part, and a statement of the first one ends there. -/
structure Severed (C : Parallel) : Prop where
  ends : C.tail' = []
  stop : ∀ e : Token, e.kind = .eof →
    Grammar.statementEnd.contains (Input.nth e 0 C.tail).kind = true

/-- Both inputs have a token before the place where they part; or the second one is at its end, and
whatever the first one takes is past that place. -/
theorem Inputs.inside_or_past (h : C.Inputs i i') (hC : C.tail' = []) :
    (∃ v t us, i.Next v t us ∧ C.tail.length ≤ us.length) ∨
      i'.Done ∧ i.peek 0 = Input.nth i.eof 0 C.tail ∧
        ∀ v t us, i.Next v t us → us.length < C.tail.length := by
  obtain ⟨w, w', hi, hi', hw⟩ := h.tokens
  rw [hC, List.append_nil] at hi'
  rcases (i.advance w).next_or_done with ⟨v, t, x, hn⟩ | hd
  · refine .inl ⟨v, t, x ++ C.tail, ⟨?_, hn.trivia, hn.significant⟩, ?_⟩
    · rw [hi, show w = v ++ t :: x from hn.tokens, List.append_assoc]
      rfl
    · rw [List.length_append]
      exact Nat.le_add_left _ _
  · have hw₀ : AllTrivia w := hd
    have hdone : i'.Done := by
      rw [Input.Done, hi']
      exact AllTrivia.of_forall₂ hw hw₀
    refine .inr ⟨hdone, by rw [Input.peek, hi, Input.nth_append hw₀], fun v t us hn => ?_⟩
    by_contra hle
    -- the token would be among the trivia before the place where the inputs part
    obtain ⟨x, hx⟩ := List.suffix_of_suffix_length_le ⟨w, hi.symm⟩
      ⟨v ++ [t], by rw [hn.tokens]; simp⟩ (Nat.le_of_not_lt hle)
    have htokens := hn.tokens
    rw [hi, ← hx, ← List.cons_append, ← List.append_assoc] at htokens
    have ht : t ∈ w := by
      rw [List.append_cancel_right htokens]
      simp
    have := hw₀ t ht
    rw [hn.significant] at this
    cases this

/-- Tokens seen ahead: they correspond, or a statement ends with the first one and the second one is
the end of input. -/
def Glimpsed (C : Parallel) (t t' : Token) : Prop :=
  C.Tokens t t' ∨ Grammar.statementEnd.contains t.kind = true ∧ t'.kind = .eof

namespace Glimpsed

variable {t t' : Token}

theorem contains (h : C.Glimpsed t t') {s : KindSet}
    (hs : ∀ k, s.contains k = true → k.isInline = true) :
    s.contains t'.kind = s.contains t.kind := by
  have hnot : ∀ k, Grammar.statementEnd.contains k = true → s.contains k = false := by
    intro k hk
    rw [Bool.eq_false_iff]
    intro hc
    have := hs k hc
    rw [Kind.isInline, hk] at this
    cases this
  rcases h with h | ⟨hk, hk'⟩
  · rw [h.kind]
  · rw [hk', hnot _ hk, hnot _ rfl]

theorem statementEnd (h : C.Glimpsed t t') :
    Grammar.statementEnd.contains t'.kind = Grammar.statementEnd.contains t.kind := by
  rcases h with h | ⟨hk, hk'⟩
  · rw [h.kind]
  · rw [hk', hk]
    rfl

theorem kind_eq_iff (h : C.Glimpsed t t') {k : Kind} (hk : k.isInline = true) :
    t'.kind = k ↔ t.kind = k := by
  rcases h with h | ⟨hend, heof⟩
  · rw [h.kind]
  · rw [heof]
    constructor
    · rintro rfl
      cases hk
    · rintro rfl
      rw [Kind.isInline, hend] at hk
      cases hk

theorem beq_kind (h : C.Glimpsed t t') {k : Kind} (hk : k.isInline = true) :
    (t'.kind == k) = (t.kind == k) := by
  rw [Bool.eq_iff_iff, beq_iff_eq, beq_iff_eq]
  exact h.kind_eq_iff hk

theorem free (h : C.Glimpsed t t') : t'.isFree = t.isFree := by
  rcases h with h | ⟨hend, heof⟩
  · exact h.free
  · rw [Token.isFree, Token.isFree, heof, Seen.not_ident hend]
    rfl

theorem sosType (h : C.Glimpsed t t') : Rule.isSosType t' = Rule.isSosType t := by
  rcases h with h | ⟨hend, heof⟩
  · exact h.sosType
  · rw [Rule.isSosType, Rule.isSosType, heof, Seen.not_ident hend]
    rfl

theorem signed (h : C.Glimpsed t t') : Rule.isSignedLiteral t' = Rule.isSignedLiteral t := by
  rcases h with h | ⟨hend, heof⟩
  · exact h.signed
  · rw [Rule.isSignedLiteral, Rule.isSignedLiteral, heof, Grammar.not_literals_of_statementEnd hend]
    rfl

end Glimpsed

/-- Tokens ahead, as long as no end of a statement stands in front of them. -/
theorem glimpsed_nth (hC : C.Severed) {w w' : List Token} (h : List.Forall₂ C.Tokens w w')
    {e e' : Token} (he : e.kind = .eof) (he' : e'.kind = .eof) (n : Nat) (hn : ∀ m < n,
      Grammar.statementEnd.contains (Input.nth e m (w ++ C.tail)).kind = false) :
    C.Glimpsed (Input.nth e n (w ++ C.tail)) (Input.nth e' n (w' ++ C.tail')) := by
  induction h generalizing n with
  | nil =>
    rw [List.nil_append, List.nil_append, hC.ends, Input.nth]
    cases n with
    | zero => exact .inr ⟨hC.stop e he, he'⟩
    | succ n =>
      have := hn 0 (Nat.succ_pos n)
      rw [List.nil_append, hC.stop e he] at this
      cases this
  | @cons t t' w w' ht _ ih =>
    by_cases htr : t.kind.isTrivia = true
    · rw [List.cons_append, List.cons_append, Input.nth_cons_trivia htr,
        Input.nth_cons_trivia (ht.kind ▸ htr)]
      refine ih n fun m hm => ?_
      have := hn m hm
      rwa [List.cons_append, Input.nth_cons_trivia htr] at this
    · have hsig : t.kind.isTrivia = false := by simpa using htr
      have hsig' : t'.kind.isTrivia = false := by rwa [ht.kind]
      cases n with
      | zero =>
        rw [List.cons_append, List.cons_append, Input.nth_zero_cons hsig,
          Input.nth_zero_cons hsig']
        exact .inl ht
      | succ n =>
        rw [List.cons_append, List.cons_append, Input.nth_succ_cons hsig,
          Input.nth_succ_cons hsig']
        refine ih n fun m hm => ?_
        have := hn (m + 1) (Nat.succ_lt_succ hm)
        rwa [List.cons_append, Input.nth_succ_cons hsig] at this

namespace Inputs

theorem glimpse (h : C.Inputs i i') (hC : C.Severed) (n : Nat)
    (hn : ∀ m < n, Grammar.statementEnd.contains (i.peek m).kind = false) :
    C.Glimpsed (i.peek n) (i'.peek n) := by
  obtain ⟨w, w', hi, hi', hw⟩ := h.tokens
  simp only [Input.peek, hi, hi'] at hn ⊢
  exact glimpsed_nth hC hw h.proper.eof h.proper'.eof n hn

theorem glimpse_zero (h : C.Inputs i i') (hC : C.Severed) : C.Glimpsed (i.peek 0) (i'.peek 0) :=
  h.glimpse hC 0 fun _ hm => absurd hm (Nat.not_lt_zero _)

theorem glimpse_one (h : C.Inputs i i') (hC : C.Severed)
    (hk : Grammar.statementEnd.contains (i.peek 0).kind = false) :
    C.Glimpsed (i.peek 1) (i'.peek 1) :=
  h.glimpse hC 1 fun m hm => by
    obtain rfl : m = 0 := by omega
    exact hk

theorem length_lt_iff {j j' : Input} (hi : C.Inputs i i') (hj : C.Inputs j j') :
    j'.tokens.length < i'.tokens.length ↔ j.tokens.length < i.tokens.length := by
  obtain ⟨w, w', h₁, h₂, h₃⟩ := hi.tokens
  obtain ⟨x, x', h₄, h₅, h₆⟩ := hj.tokens
  rw [h₁, h₂, h₄, h₅, List.length_append, List.length_append, List.length_append, List.length_append,
    h₃.length_eq, h₆.length_eq]
  omega

end Inputs

end Parallel

/-! ## Rules -/

namespace Rule

/-- A rule that stops at or before the place where the inputs part reads them alike. -/
structure Cuts {α : Type} (C : Parallel) (P : Input → Prop) (p : Rule α) : Prop where
  shrinks : ∀ i, (p i).rest.tokens.length ≤ i.tokens.length
  alike : ∀ i i', C.Inputs i i' → P i → C.tail.length ≤ (p i).rest.tokens.length →
    C.Outcomes (p i) (p i')

/-- A rule takes the next token wherever a condition holds. -/
def Advances (P : Input → Prop) {α : Type} (p : Rule α) : Prop :=
  ∀ i v t us, i.Proper → P i → i.Next v t us → (p i).rest.tokens.length ≤ us.length

theorem Advances.of_spec {α : Type} {P : Input → Prop} {p : Rule α} {Q : Nat → α → Input → Prop}
    (h : ∀ n, Spec (fun _ => True) n P p (Q n)) (hQ : ∀ n a j, Q n a j → n < j.taken) :
    Advances P p := by
  intro i v t us hi hP hn
  have hs := h i.taken i hi (Nat.le_refl _) hP
  obtain ⟨xs, f, ht, _⟩ := hs.trace
  exact ht.rest_length_le hn (ht.taken_lt_iff.1 (hQ _ _ _ hs.post))

namespace Cuts

variable {α β : Type} {C : Parallel} {P P' : Input → Prop} {p q : Rule α} {f : α → Rule β}

theorem pre (h : Cuts C P p) (hP : ∀ i, P' i → P i) : Cuts C P' p :=
  ⟨h.shrinks, fun i i' hi hPi hl => h.alike i i' hi (hP i hPi) hl⟩

theorem pure (a : α) : Cuts C P (Pure.pure a : Rule α) :=
  ⟨fun _ => Nat.le_refl _, fun _ _ hi _ _ => ⟨rfl, .empty, hi⟩⟩

theorem bind (hp : Cuts C P p) (hf : ∀ a, Cuts C (fun _ => True) (f a)) : Cuts C P (p >>= f) := by
  refine ⟨fun i => Nat.le_trans ((hf _).shrinks _) (hp.shrinks i), fun i i' hi hPi hl => ?_⟩
  have h₁ := hp.alike i i' hi hPi (Nat.le_trans hl ((hf _).shrinks _))
  have h₂ := (hf (p i).value).alike _ _ h₁.rest trivial hl
  rw [bind_run, bind_run, h₁.value]
  exact ⟨h₂.value, h₁.output.append h₂.output, h₂.rest⟩

theorem ite {c : Prop} [Decidable c] (h₁ : c → Cuts C P p) (h₂ : ¬ c → Cuts C P q) :
    Cuts C P (if c then p else q) := by
  split_ifs with hc
  · exact h₁ hc
  · exact h₂ hc

/-- A look ahead. -/
theorem test {g : Input → α} (hg : ∀ i i', C.Inputs i i' → P i → g i' = g i) :
    Cuts C P (fun i => ⟨g i, {}, i⟩) :=
  ⟨fun _ => Nat.le_refl _, fun i i' hi hPi _ => ⟨hg i i' hi hPi, .empty, hi⟩⟩

/-- A look ahead and what follows. -/
theorem look {g : Input → α} (hg : ∀ i i', C.Inputs i i' → P i → g i' = g i)
    (hf : ∀ a, Cuts C (fun i => P i ∧ a = g i) (f a)) :
    Cuts C P ((fun i => ⟨g i, {}, i⟩ : Rule α) >>= f) := by
  refine ⟨fun i => (hf (g i)).shrinks i, fun i i' hi hPi hl => ?_⟩
  have h := (hf (g i)).alike i i' hi ⟨hPi, rfl⟩ hl
  change C.Outcomes (f (g i) i) (f (g i') i')
  rwa [hg i i' hi hPi]

/-- A choice that depends on what is ahead. -/
theorem branch {c : Input → Prop} [∀ i, Decidable (c i)]
    (hc : ∀ i i', C.Inputs i i' → P i →
      C.tail.length ≤ ((if c i then p else q) i).rest.tokens.length → (c i' ↔ c i))
    (h₁ : Cuts C (fun i => P i ∧ c i) p) (h₂ : Cuts C (fun i => P i ∧ ¬ c i) q) :
    Cuts C P (fun i => (if c i then p else q) i) := by
  refine ⟨fun i => ?_, fun i i' hi hPi hl => ?_⟩
  · by_cases h : c i
    · simp only [if_pos h]
      exact h₁.shrinks i
    · simp only [if_neg h]
      exact h₂.shrinks i
  · have hiff := hc i i' hi hPi hl
    by_cases h : c i
    · simp only [if_pos h, if_pos (hiff.2 h)] at hl ⊢
      exact h₁.alike i i' hi ⟨hPi, h⟩ hl
    · simp only [if_neg h, if_neg (mt hiff.1 h)] at hl ⊢
      exact h₂.alike i i' hi ⟨hPi, h⟩ hl

/-! ## Tokens and nodes -/

theorem length_takeTrivia (i : Input) : (takeTrivia i).rest.tokens.length ≤ i.tokens.length :=
  (List.dropWhile_sublist _).length_le

theorem length_takeToken (kind : Kind) (i : Input) :
    (takeToken kind i).rest.tokens.length ≤ i.tokens.length := by
  rw [takeToken]
  cases hi : i.tokens with
  | nil => simp [hi]
  | cons t ts => simp

theorem length_bumpAs (kind : Kind) (i : Input) :
    (Rule.bumpAs kind i).rest.tokens.length ≤ i.tokens.length := by
  change ((if (i.peek 0).kind = .eof then (Pure.pure () : Rule Unit)
    else Rule.takeTrivia >>= fun _ => takeToken kind) i).rest.tokens.length ≤ _
  split_ifs
  · exact Nat.le_refl _
  · exact Nat.le_trans (length_takeToken _ _) (length_takeTrivia i)

section Ends

variable (hC : C.tail' = [])

include hC

theorem bumpAs_of {g : Input → Kind}
    (hg : ∀ i i' : Input, C.Tokens (i.peek 0) (i'.peek 0) → g i' = g i) :
    Cuts C P (fun i => Rule.bumpAs (g i) i) := by
  refine ⟨fun i => length_bumpAs _ i, fun i i' hi _ hl => ?_⟩
  rcases hi.inside_or_past hC with ⟨v, t, us, hn, hlen⟩ | ⟨hd', hpeek, hpast⟩
  · obtain ⟨v', t', us', hn', hv, ht, hafter, _⟩ := hi.next hn hlen
    have hne := hi.proper.ne_eof hn.mem
    have hk : g i' = g i := hg i i' (by rwa [hn.peek_zero, hn'.peek_zero])
    simp only [hk, bumpAs_next hn hne, bumpAs_next hn' (ht.kind ▸ hne)]
    exact ⟨rfl, (Parallel.Outputs.trivia hv).append (.token _ ht), hafter⟩
  · -- a token taken here would be past the place where the inputs part
    have hd : i.Done := by
      rcases i.next_or_done with ⟨v, t, us, hn⟩ | hd
      · have hne := hi.proper.ne_eof hn.mem
        simp only [bumpAs_next hn hne] at hl
        exact absurd (hpast v t us hn) (Nat.not_lt.2 hl)
      · exact hd
    simp only [bumpAs_done hd hi.proper.eof, bumpAs_done hd' hi.proper'.eof]
    exact ⟨rfl, .empty, hi⟩

theorem bumpAs (kind : Kind) : Cuts C P (Rule.bumpAs kind) :=
  bumpAs_of hC (g := fun _ => kind) fun _ _ _ => rfl

theorem bump : Cuts C P Rule.bump := bumpAs_of hC fun _ _ ht => ht.kind

theorem bumpTimes (n : Nat) : Cuts C P (Rule.bumpTimes n) := by
  induction n generalizing P with
  | zero => exact .pure ()
  | succ n ih => exact .bind (bump hC) fun _ => ih

theorem takeTrivia : Cuts C P Rule.takeTrivia := by
  refine ⟨length_takeTrivia, fun i i' hi _ hl => ?_⟩
  obtain ⟨v, us, hvus, hv, hus⟩ := i.exists_trivia
  rw [takeTrivia_run hvus hv hus] at hl ⊢
  obtain ⟨w, w', hw, hw', hall⟩ := hi.tokens
  obtain ⟨x, rfl⟩ : ∃ x, us = x ++ C.tail := by
    obtain ⟨x, hx⟩ := List.suffix_of_suffix_length_le ⟨w, hw.symm⟩ ⟨v, hvus.symm⟩ hl
    exact ⟨x, hx.symm⟩
  obtain rfl : w = v ++ x := by
    rw [hvus, ← List.append_assoc] at hw
    exact (List.append_cancel_right hw).symm
  obtain ⟨v', x', rfl, hvv, hxx⟩ := Parallel.forall₂_append_left hall
  rw [List.append_assoc] at hw'
  have hus' : ∀ t ∈ (x' ++ C.tail').head?, t.kind.isTrivia = false := by
    rw [hC, List.append_nil]
    cases hxx with
    | nil => nofun
    | @cons t t' x x' ht _ =>
      rintro u ⟨⟩
      rw [ht.kind]
      exact hus t rfl
  rw [takeTrivia_run hw' (Parallel.AllTrivia.of_forall₂ hvv hv) hus']
  refine ⟨rfl, .trivia hvv, ⟨x, x', rfl, rfl, hxx⟩, hi.takenEnd, hi.proper.of_suffix rfl ?_,
    hi.proper'.of_suffix rfl ?_⟩
  · exact ⟨v, hvus.symm⟩
  · exact ⟨v', hw'.symm⟩

omit hC in
theorem enclose {body : Rule Kind} (hb : Cuts C P body) : Cuts C P (Rule.enclose body) := by
  refine ⟨hb.shrinks, fun i i' hi hPi hl => ?_⟩
  have h := hb.alike i i' hi hPi hl
  refine ⟨rfl, ?_, h.rest⟩
  change C.Outputs (.enclosed (body i).value (body i).output)
    (.enclosed (body i').value (body i').output)
  rw [h.value]
  exact h.output.enclosed _

theorem nodeOf {body : Rule Kind} (hb : Cuts C (fun _ => True) body) :
    Cuts C P (Rule.nodeOf body) :=
  .bind (takeTrivia hC) fun _ => .enclose hb

theorem node (kind : Kind) {body : Rule Unit} (hb : Cuts C (fun _ => True) body) :
    Cuts C P (Rule.node kind body) :=
  nodeOf hC (.bind hb fun _ => .pure kind)

omit hC in
theorem length_repeatWhile {step : Rule Bool}
    (hs : ∀ i, (step i).rest.tokens.length ≤ i.tokens.length)
    (i : Input) : (Rule.repeatWhile step i).rest.tokens.length ≤ i.tokens.length := by
  obtain ⟨o, j, hloops, _, hrun⟩ := repeatWhile_cases step i
  rw [hrun]
  exact Nat.le_trans (hs j) hloops.length_le

omit hC in
theorem repeatWhile {step : Rule Bool} (hs : Cuts C (fun _ => True) step) :
    Cuts C P (Rule.repeatWhile step) := by
  refine pre (P := fun _ => True) ⟨length_repeatWhile hs.shrinks, fun i i' hi _ hl => ?_⟩
    fun _ _ => trivial
  induction hlen : i.tokens.length using Nat.strongRecOn generalizing i i' with
  | ind len ih =>
    by_cases h : (step i).value = true ∧ (step i).rest.tokens.length < i.tokens.length
    · rw [repeatWhile_pos h.1 h.2] at hl ⊢
      have hsame := hs.alike i i' hi trivial (Nat.le_trans hl (length_repeatWhile hs.shrinks _))
      have hlt' := (hi.length_lt_iff hsame.rest).2 h.2
      have hmore := ih _ (hlen ▸ h.2) (step i).rest (step i').rest hsame.rest hl rfl
      rw [repeatWhile_pos (hsame.value.trans h.1) hlt']
      exact ⟨rfl, hsame.output.append hmore.output, hmore.rest⟩
    · rw [repeatWhile_neg h] at hl ⊢
      have hsame := hs.alike i i' hi trivial hl
      have h' : ¬ ((step i').value = true ∧ (step i').rest.tokens.length < i'.tokens.length) := by
        rwa [hsame.value, hi.length_lt_iff hsame.rest]
      rw [repeatWhile_neg h']
      exact ⟨rfl, hsame.output, hsame.rest⟩

/-! ## Diagnostics and recovery -/

omit hC in
theorem missing (e : Expected) : Cuts C P (Rule.missing e) := by
  refine ⟨fun _ => Nat.le_refl _, fun i i' hi _ _ => ⟨rfl, .report ⟨?_, .inl rfl⟩, hi⟩⟩
  rw [hi.takenEnd]
  rfl

omit hC in
/-- A report about the next token in front of a rule that takes it. -/
theorem flag {p : Rule Unit} (problem : Token → Problem) (resyncs : Input → List Resync)
    (hsame : ∀ t t' : Token, t'.kind = t.kind → t'.text = t.text → problem t' = problem t)
    (hp : Cuts C P p) (ht : Advances P p) (hne : ∀ i, P i → (i.peek 0).kind ≠ .eof) :
    Cuts C P (fun i => ⟨(), ⟨[], [⟨problem (i.peek 0), (i.peek 0).span⟩], resyncs i⟩ ++
      (p i).output, (p i).rest⟩) := by
  refine ⟨hp.shrinks, fun i i' hi hPi hl => ?_⟩
  obtain ⟨v, t, us, hn, _⟩ := hi.proper.exists_next (hne i hPi)
  have hlen := Nat.le_trans hl (ht i v t us hi.proper hPi hn)
  obtain ⟨v', t', us', hn', _, htok, _⟩ := hi.next hn hlen
  have h := hp.alike i i' hi hPi hl
  refine ⟨rfl, .append ⟨rfl, .cons ⟨?_, ?_⟩ .nil⟩ h.output, h.rest⟩
  · rw [hn.peek_zero, hn'.peek_zero, htok.span]
  · rw [hn.peek_zero, hn'.peek_zero]
    exact htok.text.imp (hsame t t' htok.kind) id

/-- A choice by the next token, where the token is taken if it belongs to the set. -/
theorem branch_advances {s : KindSet} (hs : ∀ k, s.contains k = true → k.isInline = true)
    {c : Input → Prop} [∀ i, Decidable (c i)] (hc : ∀ i, c i ↔ At s i)
    (h₁ : Cuts C (fun i => P i ∧ c i) p) (h₂ : Cuts C (fun i => P i ∧ ¬ c i) q)
    (ht : Advances c p) : Cuts C P (fun i => (if c i then p else q) i) := by
  refine branch (fun i i' hi hPi hl => ?_) h₁ h₂
  rcases hi.inside_or_past hC with ⟨v, t, us, hn, hlen⟩ | ⟨hd', hpeek, hpast⟩
  · obtain ⟨v', t', us', hn', _, htok, _⟩ := hi.next hn hlen
    rw [hc, hc, At, At, hn.peek_zero, hn'.peek_zero, htok.kind]
  · refine ⟨fun h => ?_, fun h => ?_⟩
    · have hat := (hc i').1 h
      rw [At, hd'.peek, hi.proper'.eof] at hat
      exact absurd (hs _ hat) (by decide)
    · obtain ⟨v, t, us, hn, _⟩ :=
        hi.proper.exists_next (ne_eof_of_inline (hs _ ((hc i).1 h)))
      rw [if_pos h] at hl
      exact absurd (hpast v t us hn) (Nat.not_lt.2 (Nat.le_trans hl (ht i v t us hi.proper h hn)))

end Ends

section Severed

variable (hC : C.Severed)

include hC

/-- A choice by the next token. -/
theorem ifAt {s : KindSet} (hs : ∀ k, s.contains k = true → k.isInline = true)
    (h₁ : Cuts C (fun i => P i ∧ At s i) p) (h₂ : Cuts C (fun i => P i ∧ ¬ At s i) q) :
    Cuts C P (Rule.atSet s >>= fun b => if b = true then p else q) :=
  branch (c := fun i => s.contains (i.peek 0).kind = true)
    (fun i i' hi _ _ => by rw [(hi.glimpse_zero hC).contains hs]) h₁ h₂

/-- A choice by the kind of the next token. -/
theorem ifKind {k : Kind} (hk : k.isInline = true)
    (h₁ : Cuts C (fun i => P i ∧ (i.peek 0).kind = k) p)
    (h₂ : Cuts C (fun i => P i ∧ (i.peek 0).kind ≠ k) q) :
    Cuts C P (current >>= fun k' => if k' = k then p else q) :=
  branch (c := fun i => (i.peek 0).kind = k)
    (fun _ _ hi _ _ => (hi.glimpse_zero hC).kind_eq_iff hk) h₁ h₂

theorem atStatementEnd : Cuts C P Rule.atStatementEnd :=
  test (g := fun i => Grammar.statementEnd.contains (i.peek 0).kind)
    fun _ _ hi _ => (hi.glimpse_zero hC).statementEnd

theorem atSet {s : KindSet} (hs : ∀ k, s.contains k = true → k.isInline = true) :
    Cuts C P (Rule.atSet s) :=
  test (g := fun i => s.contains (i.peek 0).kind) fun _ _ hi _ => (hi.glimpse_zero hC).contains hs

end Severed

end Cuts

/-! ## Taking a token -/

section Advances

variable {α β : Type} {P P' : Input → Prop}

theorem advances_bump : Advances P bump := by
  intro i v t us hi _ hn
  rw [bump_eq, bumpAs_next hn (hi.ne_eof hn.mem)]
  exact Nat.le_refl _

theorem Advances.of_branch {c : Input → Prop} [∀ i, Decidable (c i)] {p q : Rule α}
    (h : Advances P fun i => (if c i then p else q) i) (hP : ∀ i, P i → c i) : Advances P p := by
  intro i v t us hi hPi hn
  simpa only [if_pos (hP i hPi)] using h i v t us hi hPi hn

theorem Advances.bind {C : Parallel} {p : Rule α} {f : α → Rule β} (h : Advances P p)
    (hf : ∀ a, Cuts C (fun _ => True) (f a)) : Advances P (p >>= f) :=
  fun i v t us hi hPi hn => Nat.le_trans ((hf _).shrinks _) (h i v t us hi hPi hn)

theorem advances_errorNode : Advances P (node .errorNode bump) := by
  intro i v t us hi _ hn
  rw [node_run hn.tokens hn.trivia hn.head?]
  exact advances_bump (P := fun _ => True) _ [] t us (hi.of_suffix rfl ⟨v, hn.tokens.symm⟩) trivial
    ⟨rfl, allTrivia_nil, hn.significant⟩

theorem advances_skipped :
    Advances (fun i => ¬ At Grammar.statementEnd i) (node .errorNode toStatementEnd) :=
  .of_spec (fun _ => wraps_skipped.spec (stable_not_at _) fun _ => ne_eof_of_not_at)
    fun _ _ _ h => h.1

end Advances

/-! ## Constants and entries -/

section Ends

variable {C : Parallel} {P : Input → Prop} (hC : C.tail' = [])

include hC

theorem cuts_signs : Cuts C P (bumpWhile Grammar.signs) :=
  .repeatWhile (.branch_advances hC inline_signs (fun _ => Iff.rfl)
    (.bind (.bump hC) fun _ => .pure true)
    (.pure false) (Advances.bind (C := C) advances_bump fun _ => .pure true))

theorem cuts_invalidNumber : Cuts C (fun i => (i.peek 0).kind = .invalidNumber) invalidNumber := by
  refine .flag (p := bump) (fun t => .invalidNumber t.text) (fun _ => []) ?_ (.bump hC)
    advances_bump ?_
  · exact fun t t' _ ht => by rw [ht]
  · intro i h
    rw [h]
    exact Kind.noConfusion

theorem cuts_skipToken (e : Expected) (hP : ∀ i, P i → (i.peek 0).kind ≠ .eof) :
    Cuts C P (skipToken e) := by
  refine .flag (p := node .errorNode bump) (fun t => .unexpected e (found t)) (fun _ => []) ?_
    (.node hC _ (.bump hC)) advances_errorNode hP
  exact fun t t' hk ht => by rw [Spec.found_eq hk ht]

/-- What comes up to the end of a statement is taken. -/
theorem branch_end {α : Type} {p q : Rule α} (h₁ : Cuts C P p)
    (h₂ : Cuts C (fun i => ¬ At Grammar.statementEnd i) q)
    (ht : Advances (fun i => ¬ At Grammar.statementEnd i) q) :
    Cuts C P (atStatementEnd >>= fun b => if b = true then p else q) := by
  refine .branch (c := fun i => Grammar.statementEnd.contains (i.peek 0).kind = true)
    (fun i i' hi hPi hl => ?_) (h₁.pre fun _ h => h.1) (h₂.pre fun _ h => h.2)
  rcases hi.inside_or_past hC with ⟨v, t, us, hn, hlen⟩ | ⟨hd', hpeek, hpast⟩
  · obtain ⟨v', t', us', hn', _, htok, _⟩ := hi.next hn hlen
    rw [hn.peek_zero, hn'.peek_zero, htok.kind]
  · rw [hd'.peek, hi.proper'.eof]
    refine ⟨fun _ => ?_, fun _ => rfl⟩
    by_contra h
    obtain ⟨v, t, us, hn, _⟩ := hi.proper.exists_next (ne_eof_of_not_at h)
    rw [if_neg h] at hl
    exact absurd (hpast v t us hn) (Nat.not_lt.2 (Nat.le_trans hl (ht i v t us hi.proper h hn)))

theorem cuts_toStatementEnd : Cuts C P toStatementEnd :=
  .repeatWhile (branch_end hC (.pure false) (.bind (.bump hC) fun _ => .pure true)
    (.bind (C := C) advances_bump fun _ => .pure true))

theorem cuts_recover (e : Expected) : Cuts C P (recover e) := by
  refine branch_end hC (.missing e) ?_ ?_
  · refine .flag (p := node .errorNode toStatementEnd) (fun t => .unexpected e (found t))
      (fun i => [⟨(i.peek 0).span, e⟩]) ?_ (.node hC _ (cuts_toStatementEnd hC)) advances_skipped
      fun _ h => ne_eof_of_not_at h
    exact fun t t' hk ht => by rw [Spec.found_eq hk ht]
  · exact advances_skipped

theorem cuts_constant : Cuts C P constant := by
  refine .branch_advances hC inline_constantFirst (fun _ => Iff.rfl) (.node hC _ ?_)
    (cuts_recover hC _) ?_
  · refine .bind (cuts_signs hC) fun _ => .branch_advances hC inline_literals (fun _ => Iff.rfl)
      (.bump hC) ?_ advances_bump
    exact .branch_advances hC (s := .ofList [.invalidNumber]) (inline_ofList (by decide))
      (fun _ => KindSet.contains_singleton.symm) ((cuts_invalidNumber hC).pre fun _ h => h.2)
      (.missing _) advances_bump
  · have h : Advances (At Grammar.constantFirst) constant :=
      .of_spec (fun _ => spec_constant (fun _ _ => trivial) fun _ h => .inr h) fun _ _ _ h => h
    exact h.of_branch fun _ h => h

theorem cuts_sosEntry : Cuts C P sosEntry :=
  .node hC _ (.bind (.bump hC) fun _ => .bind (.bump hC) fun _ => cuts_constant hC)

end Ends

/-! ## Linear expressions -/

section Severed

variable {C : Parallel} {P : Input → Prop} (hC : C.Severed)

include hC

theorem cuts_variableName : Cuts C P variableName :=
  .ifKind hC rfl ((cuts_invalidNumber hC.ends).pre fun _ h => h.2) (.bump hC.ends)

theorem severed_atLabel {separators : KindSet}
    (hs : ∀ k, separators.contains k = true → k.isInline = true) {i i' : Input}
    (hi : C.Inputs i i') : AtLabel separators i' ↔ AtLabel separators i := by
  rw [AtLabel, AtLabel, (hi.glimpse_zero hC).kind_eq_iff rfl]
  refine and_congr_right fun hk => ?_
  rw [(hi.glimpse_one hC (by rw [hk]; rfl)).contains hs]

theorem cuts_label {separators : KindSet}
    (hs : ∀ k, separators.contains k = true → k.isInline = true) : Cuts C P (label separators) :=
  .branch (c := AtLabel separators) (fun _ _ hi _ _ => severed_atLabel hC hs hi)
    (.node hC.ends _ (.bind (.bump hC.ends) fun _ => .bump hC.ends)) (.pure ())

theorem cuts_term : Cuts C P term := by
  have hvariable : Cuts C (fun _ => True) (atSet Grammar.variableFirst >>= fun b =>
      if b = true then variableName else missing .variableUse) :=
    .ifAt hC inline_variableFirst (cuts_variableName hC) (.missing _)
  refine .node hC.ends _ (.bind (cuts_signs hC.ends) fun _ => .ifAt hC inline_literals ?_ ?_)
  · exact .bind (.bump hC.ends) fun _ => hvariable
  · refine .branch (c := AtBadNumber) (fun i i' hi _ _ => ?_) ?_ ?_
    · rw [AtBadNumber, AtBadNumber, (hi.glimpse_zero hC).kind_eq_iff rfl]
      refine and_congr_right fun hk => ?_
      rw [(hi.glimpse_one hC (by rw [hk]; rfl)).contains inline_variableFirst]
    · exact .bind ((cuts_invalidNumber hC.ends).pre fun _ h => h.2.1) fun _ => hvariable
    · exact hvariable.pre fun _ _ => trivial

omit hC in
/-- The line ends next are the same in both inputs, with tokens of one kind behind them; or the other
input ends with them. -/
theorem lineAhead_cut (hC : C.tail' = []) {i i' : Input} (hi : C.Inputs i i') :
    lineAhead i' = lineAhead i ∨
      (lineAhead i').2 = .eof ∧ (i'.peek (lineAhead i).1).kind = .eof := by
  obtain ⟨w, w', hw, hw', hall⟩ := hi.tokens
  rw [hC, List.append_nil] at hw'
  have hproper' := hi.proper'.eof
  simp only [lineAhead, Input.peek, hw, hw']
  clear hw hw' hi
  induction hall with
  | nil => exact .inr ⟨hproper', hproper'⟩
  | @cons t t' w w' ht _ ih =>
    simp only [List.cons_append, Input.newlineRun, ht.kind]
    by_cases htr : t.kind.isTrivia = true
    · simp only [if_pos htr, Input.nth_cons_trivia htr, Input.nth_cons_trivia (ht.kind ▸ htr)]
      exact ih
    · have hsig : t.kind.isTrivia = false := by simpa using htr
      have hsig' : t'.kind.isTrivia = false := by rwa [ht.kind]
      simp only [if_neg htr]
      split_ifs with hnl
      · simp only [Nat.add_comm 1, Input.nth_succ_cons hsig, Input.nth_succ_cons hsig']
        refine ih.imp (fun h => ?_) id
        obtain ⟨h₁, h₂⟩ := Prod.mk.inj h
        rw [h₁] at h₂ ⊢
        rw [h₂]
      · rw [Input.nth_zero_cons hsig, Input.nth_zero_cons hsig', ht.kind]
        exact .inl rfl

omit hC in
theorem peek_bumpTimes (l : Nat) {i : Input} (hi : i.Proper) (m : Nat) :
    (bumpTimes l i).rest.peek m = i.peek (l + m) := by
  induction l generalizing i with
  | zero => rw [Nat.zero_add]; rfl
  | succ l ih =>
    change (bumpTimes l (bump i).rest).rest.peek m = _
    rcases i.next_or_done with ⟨v, t, us, hn⟩ | hd
    · have hproper : (i.after t us).Proper :=
        hi.of_suffix rfl ⟨v ++ [t], by simp [hn.tokens, Input.after]⟩
      rw [bump_eq, bumpAs_next hn (hi.ne_eof hn.mem), ih hproper, Nat.add_right_comm, hn.peek_succ]
      rfl
    · rw [bump_eq, bumpAs_done hd hi.eof, ih hi, hd.peek, hd.peek]

theorem cuts_continueLine : Cuts C P continueLine := by
  let goesOn (a : Nat × Kind) : Prop :=
    0 < a.1 ∧ (Grammar.termFirst.contains a.2 ∨ Grammar.junk.contains a.2)
  have hpos : ∀ i, goesOn (lineAhead i) → continueLine i = bumpTimes (lineAhead i).1 i :=
    fun i h => if_pos h
  have hneg : ∀ i, ¬ goesOn (lineAhead i) → continueLine i = ⟨(), {}, i⟩ := fun i h => if_neg h
  have heof : ∀ a : Nat × Kind, a.2 = .eof → ¬ goesOn a := by
    rintro a ha ⟨_, h⟩
    rw [ha] at h
    revert h
    decide
  refine ⟨fun i => ?_, fun i i' hi _ hl => ?_⟩
  · by_cases h : goesOn (lineAhead i)
    · rw [hpos i h]
      exact (Cuts.bumpTimes (P := fun _ => True) hC.ends _).shrinks i
    · rw [hneg i h]
  · by_cases h : goesOn (lineAhead i)
    · rw [hpos i h] at hl ⊢
      have hsame := (Cuts.bumpTimes (P := fun _ => True) hC.ends _).alike i i' hi trivial hl
      rcases lineAhead_cut hC.ends hi with ha | ⟨_, ha⟩
      · rw [hpos i' (ha ▸ h), ha]
        exact hsame
      · -- the token behind the line ends was not cut off, so the second input has it too
        have hg := hsame.rest.glimpse_zero hC
        rw [peek_bumpTimes _ hi.proper, peek_bumpTimes _ hi.proper', Nat.add_zero] at hg
        have h₁ := hg.contains inline_termFirst
        have h₂ := hg.contains inline_junk
        rw [ha] at h₁ h₂
        rcases h.2 with h | h
        · exact absurd (h₁.trans h) (by decide)
        · exact absurd (h₂.trans h) (by decide)
    · have h' : ¬ goesOn (lineAhead i') := by
        rcases lineAhead_cut hC.ends hi with ha | ⟨ha, _⟩
        · rwa [ha]
        · exact heof _ ha
      rw [hneg i h, hneg i' h']
      exact ⟨rfl, .empty, hi⟩

theorem cuts_flatOperand : Cuts C P flatOperand := by
  refine .bind (cuts_continueLine hC) fun _ => .bind (.repeatWhile (.ifAt hC inline_junk
    (.bind (cuts_skipToken hC.ends _ ?_) fun _ => .pure true) (.pure false))) fun _ => ?_
  · exact fun i h => ne_eof_of_inline (inline_junk _ h.2)
  · exact .ifAt hC inline_termFirst (cuts_term hC) (.missing _)

theorem cuts_expressionStep : Cuts C P expressionStep := by
  let ahead : Input → Bool × Bool × Bool := fun i =>
    ((Grammar.operator? (i.peek 0).kind).isSome, isSignedLiteral (i.peek 0),
      Grammar.junk.contains (i.peek 0).kind)
  rw [expressionStep_eq]
  change Cuts C P ((fun i => ⟨ahead i, {}, i⟩ : Rule (Bool × Bool × Bool)) >>= fun a =>
    if a.1 = true then bump >>= fun _ => flatOperand >>= fun _ => pure true
    else if a.2.1 = true then term >>= fun _ => pure true
    else if a.2.2 = true then skipToken .operator >>= fun _ => pure true
    else pure false)
  refine .look (fun i i' hi _ => ?_) fun a => .ite (fun _ => ?_) fun _ => .ite (fun _ => ?_) fun _ =>
    .ite (fun ha => ?_) fun _ => .pure false
  · have h := hi.glimpse_zero hC
    simp only [ahead, Grammar.isSome_operator?, h.contains inline_signs, h.contains inline_junk, h.signed]
  · exact .bind (.bump hC.ends) fun _ => .bind (cuts_flatOperand hC) fun _ => .pure true
  · exact .bind (cuts_term hC) fun _ => .pure true
  · refine .bind (cuts_skipToken hC.ends _ ?_) fun _ => .pure true
    rintro i ⟨_, rfl⟩
    exact ne_eof_of_inline (inline_junk _ ha)

theorem cuts_expression : Cuts C P expression := by
  refine .ifAt hC inline_termFirst (.bind ?_ fun _ => .pure true) (.pure false)
  exact .node hC.ends _ (.bind (cuts_term hC) fun _ => .repeatWhile (cuts_expressionStep hC))

/-- A comparison and a constant, or else the rest of the statement is skipped. -/
theorem cuts_comparisonOr (e : Expected) :
    Cuts C P (atSet Grammar.comparisons >>= fun b =>
      if b = true then bump >>= fun _ => constant else recover e) :=
  .ifAt hC inline_comparisons (.bind (.bump hC.ends) fun _ => cuts_constant hC.ends)
    (cuts_recover hC.ends e)

theorem cuts_comparisonTail : Cuts C P comparisonTail := cuts_comparisonOr hC _

/-! ## Statements -/

theorem cuts_endOfStatement : Cuts C P endOfStatement :=
  .bind (.atStatementEnd hC) fun _ => .ite (fun _ => .pure ()) fun _ => cuts_recover hC.ends _

theorem cuts_implicit : Cuts C P implicit := by
  refine .nodeOf hC.ends (.bind (cuts_label hC inline_labelSeparators) fun _ =>
    .bind (cuts_expression hC) fun found => .ifAt hC inline_comparisons ?_ ?_)
  · have htail : ∀ {P}, Cuts C P (comparisonTail >>= fun _ => endOfStatement >>= fun _ =>
        pure Kind.constraint) :=
      .bind (cuts_comparisonTail hC) fun _ => .bind (cuts_endOfStatement hC) fun _ =>
        .pure Kind.constraint
    exact .ite (fun _ => htail) fun _ => .bind (.missing _) fun _ => htail
  · have htail : ∀ {P}, Cuts C P (endOfStatement >>= fun _ => pure Kind.objective) :=
      .bind (cuts_endOfStatement hC) fun _ => .pure Kind.objective
    exact .bind (.atStatementEnd hC) fun _ => .ite (fun _ => htail) fun _ =>
      .bind (cuts_recover hC.ends _) fun _ => htail

theorem cuts_objective : Cuts C P objective := by
  refine .node hC.ends _ (.bind (cuts_label hC inline_colon) fun _ => .bind (cuts_expression hC)
    fun _ => .bind (.atStatementEnd hC) fun _ => .ite (fun _ => cuts_endOfStatement hC) fun _ => ?_)
  exact .bind (cuts_recover hC.ends _) fun _ => cuts_endOfStatement hC

theorem cuts_constraint : Cuts C P constraint := by
  have htail : Cuts C (fun _ => True) (comparisonTail >>= fun _ => endOfStatement) :=
    .bind (cuts_comparisonTail hC) fun _ => cuts_endOfStatement hC
  refine .node hC.ends _ (.bind (cuts_label hC inline_labelSeparators) fun _ =>
    .bind (cuts_expression hC) fun _ => .bind (.atSet hC inline_comparisons) fun _ =>
    .ite (fun _ => .ite (fun _ => htail) fun _ => ?_) fun _ => ?_)
  · exact .bind (.missing _) fun _ => htail
  · exact .bind (cuts_recover hC.ends _) fun _ => cuts_endOfStatement hC

theorem cuts_variableBound : Cuts C (At Grammar.variableFirst) variableBound := by
  change Cuts C _ ((fun i => ⟨(i.peek 1).isFree, {}, i⟩ : Rule Bool) >>= fun free =>
    variableName >>= fun _ => if free = true then bumpAs .freeKw
      else atSet Grammar.comparisons >>= fun b =>
        if b = true then bump >>= fun _ => constant else recover .freeOrComparison)
  refine .look (fun i i' hi h => ?_) fun _ =>
    .bind (cuts_variableName hC) fun _ => .ite (fun _ => .bumpAs hC.ends _) fun _ =>
    cuts_comparisonOr hC _
  exact (hi.glimpse_one hC (Kind.not_statementEnd_of_isInline (inline_variableFirst _ h))).free

theorem cuts_constantBound : Cuts C P constantBound := by
  refine .bind (cuts_constant hC.ends) fun _ => .ifAt hC inline_comparisons
    (.bind (.bump hC.ends) fun _ => .ifAt hC inline_variableFirst ?_ ?_) (cuts_recover hC.ends _)
  · refine .bind (cuts_variableName hC) fun _ => .ifAt hC inline_comparisons ?_ (.pure ())
    exact .bind (.bump hC.ends) fun _ => cuts_constant hC.ends
  · exact cuts_recover hC.ends _

theorem cuts_bound : Cuts C P bound := by
  refine .node hC.ends _ (.ifAt hC inline_variableFirst ?_ ?_)
  · exact .bind ((cuts_variableBound hC).pre fun _ h => h.2) fun _ => cuts_endOfStatement hC
  · exact .bind (cuts_constantBound hC) fun _ => cuts_endOfStatement hC

theorem cuts_declaration : Cuts C P declaration := by
  refine .node hC.ends _ (.bind (.repeatWhile ?_) fun _ => cuts_endOfStatement hC)
  refine .look (g := fun i => (Grammar.variableFirst.contains (i.peek 0).kind,
    Grammar.junk.contains (i.peek 0).kind)) (fun i i' hi _ => ?_) (f := fun a =>
      if a.1 = true then variableName >>= fun _ => pure true
      else if a.2 = true then skipToken .variableName >>= fun _ => pure true
      else pure false) fun a => .ite (fun _ => ?_) fun _ => .ite (fun ha => ?_) fun _ => .pure false
  · have h := hi.glimpse_zero hC
    rw [h.contains inline_variableFirst, h.contains inline_junk]
  · exact .bind (cuts_variableName hC) fun _ => .pure true
  · refine .bind (cuts_skipToken hC.ends _ ?_) fun _ => .pure true
    rintro i ⟨_, rfl⟩
    exact ne_eof_of_inline (inline_junk _ ha)

theorem cuts_ifAtSosEntry {α : Type} {p q : Rule α} (h₁ : Cuts C P p) (h₂ : Cuts C P q) :
    Cuts C P (atSosEntry >>= fun b => if b = true then p else q) := by
  refine .look (g := fun i => ((i.peek 0).kind == .ident && (i.peek 1).kind == .colon))
    (fun i i' hi _ => ?_) fun _ =>
      .ite (fun _ => h₁.pre fun _ h => h.1) fun _ => h₂.pre fun _ h => h.1
  rw [Bool.eq_iff_iff, ← atLabel_colon_iff, ← atLabel_colon_iff, severed_atLabel hC inline_colon hi]

theorem cuts_sosEntries : Cuts C P sosEntries :=
  .repeatWhile (cuts_ifAtSosEntry hC (.bind (cuts_sosEntry hC.ends) fun _ => .pure true)
    (.pure false))

theorem cuts_sosSet (labelled : Bool) : Cuts C P (sosSet labelled) := by
  have htail : Cuts C (fun _ => True) (bumpAs .sosType >>= fun _ => bump >>= fun _ =>
      sosEntries >>= fun _ => endOfStatement) :=
    .bind (.bumpAs hC.ends _) fun _ => .bind (.bump hC.ends) fun _ =>
      .bind (cuts_sosEntries hC) fun _ => cuts_endOfStatement hC
  cases labelled with
  | true => exact .node hC.ends _ (.bind (cuts_label hC inline_colon) fun _ => htail)
  | false => exact .node hC.ends _ htail

theorem severed_sosAhead {i i' : Input} (hi : C.Inputs i i') (hk : (i.peek 0).kind = .ident) :
    sosAhead i' = sosAhead i := by
  have h₀ : Grammar.statementEnd.contains (i.peek 0).kind = false := by
    rw [hk]
    rfl
  have h₁ := hi.glimpse_one hC h₀
  have hlabelled : ((i'.peek 1).kind == .colon && isSosType (i'.peek 2) &&
      (i'.peek 3).kind == .colon2) = ((i.peek 1).kind == .colon && isSosType (i.peek 2) &&
      (i.peek 3).kind == .colon2) := by
    rw [h₁.beq_kind rfl]
    -- every further token counts only if the one before it is inside the line
    by_cases hc : (i.peek 1).kind = .colon
    · have h₂ := hi.glimpse hC 2 fun m hm => by
        obtain rfl | rfl : m = 0 ∨ m = 1 := by omega
        · exact h₀
        · rw [hc]
          rfl
      rw [h₂.sosType]
      by_cases ht : isSosType (i.peek 2) = true
      · have h₃ := hi.glimpse hC 3 fun m hm => by
          obtain rfl | rfl | rfl : m = 0 ∨ m = 1 ∨ m = 2 := by omega
          · exact h₀
          · rw [hc]
            rfl
          · rw [((isSosType_iff _).1 ht).1]
            rfl
        rw [h₃.beq_kind rfl]
      · rw [Bool.eq_false_iff.2 ht, Bool.and_false]
        rfl
    · rw [beq_eq_false_iff_ne.2 hc]
      rfl
  rw [sosAhead, sosAhead, hlabelled, h₁.beq_kind rfl, (hi.glimpse_zero hC).sosType]

theorem cuts_sosItem : Cuts C (fun i => (i.peek 0).kind = .ident) sosItem := by
  change Cuts C _ ((fun i => ⟨sosAhead i, {}, i⟩ : Rule (Bool × Bool)) >>= fun a =>
    if a.1 = true ∨ a.2 = true then sosSet a.1
    else atSosEntry >>= fun b => if b = true then sosEntries >>= fun _ => endOfStatement
      else recover .sosSetOrEntry)
  refine .look (fun i i' hi hk => severed_sosAhead hC hi hk) fun a =>
    .ite (fun _ => cuts_sosSet hC _) fun _ => cuts_ifAtSosEntry hC ?_ (cuts_recover hC.ends _)
  exact .bind (cuts_sosEntries hC) fun _ => cuts_endOfStatement hC

theorem cuts_statementBody (rule : StatementRule) : Cuts C (At rule.first) (statementBody rule) := by
  cases rule with
  | implicit => exact cuts_implicit hC
  | objective => exact cuts_objective hC
  | constraint => exact cuts_constraint hC
  | bound => exact cuts_bound hC
  | declaration => exact cuts_declaration hC
  | sos => exact (cuts_sosItem hC).pre fun _ h => eq_ident_of_first h

theorem cuts_statementChoice (rule : StatementRule) : Cuts C P (statementChoice rule) :=
  .ifAt hC (inline_first rule) ((cuts_statementBody hC rule).pre fun _ h => h.2)
    (cuts_recover hC.ends _)

/-- **A statement reads its tokens alike when the input ends behind it.** -/
theorem statement_cut (rule : StatementRule) {i i' : Input} (hi : C.Inputs i i')
    (h : ¬ At Grammar.statementEnd i) (hl : C.tail.length ≤ (statement rule i).rest.tokens.length) :
    ¬ At Grammar.statementEnd i' ∧ C.Outcomes (statement rule i) (statement rule i') := by
  have h' : ¬ At Grammar.statementEnd i' := by
    rwa [At, (hi.glimpse_zero hC).statementEnd]
  rw [statement_eq rule hi.proper h] at hl ⊢
  rw [statement_eq rule hi.proper' h']
  exact ⟨h', (cuts_statementChoice (P := fun _ => True) hC rule).alike i i' hi trivial hl⟩

end Severed

end Rule

end LpFormat
