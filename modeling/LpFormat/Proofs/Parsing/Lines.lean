import LpFormat.Proofs.Parse.Leaves

/-!
# Line ends inside statements

A statement stays on its line, except that an operator at the end of a line continues an expression on
the next one. So a line end inside a statement stands in an expression, behind an operator of that
expression and before something that an operand can begin with.

* `Skeleton.Break`: what stands on both sides of such a line end; `Skeleton.Joined`, `Skeleton.Continued`:
  trees and parts of expressions whose line ends are all of this kind;
* `Trace.joined`: what is taken without line ends; `Trace.exists_first`: what is taken first;
* `Rule.Leaves`: rules that leave a forest with a property, with one lemma for each way to build them;
* `Rule.leaves_operation`, `Rule.leaves_expression`, **`Rule.leaves_statement`**;
* `Rule.Completes`, `Rule.Unrolls`: what a statement does, and what a loop does;
* **`statement_completes`**: statements take something and stop at their ends, and loops over them end.
-/

namespace LpFormat

/-! ## Line ends in trees -/

namespace Skeleton

/-- A leaf that is passed over when the tokens beside a line end are looked for. -/
def IsBlank (s : Skeleton) : Prop := ∃ k span, s = .leaf k span ∧ (k.isTrivia = true ∨ k = .newline)

/-- What stands on both sides of a line end inside an expression: before it an operator of the
expression, and after it a token that an operand can begin with; blanks and further line ends may
stand between. -/
structure Break (before after : List Skeleton) : Prop where
  operator : ∃ rest k span blanks, before = rest ++ .leaf k span :: blanks ∧
    (k = .plus ∨ k = .minus) ∧ ∀ s ∈ blanks, s.IsBlank
  operand : ∃ (blanks : List (Kind × Span)) (k : Kind) (span : Span) (rest : List (Kind × Span)),
    leavesOf (eventsAll after) = blanks ++ (k, span) :: rest ∧
    (∀ l ∈ blanks, l.1.isTrivia = true ∨ l.1 = .newline) ∧
    (Grammar.termFirst.contains k.lexedAs = true ∨ Grammar.junk.contains k.lexedAs = true)

/-- All line ends stand directly in expressions, between an operator and its operand. -/
inductive Joined : Skeleton → Prop where
  | leaf {k : Kind} (span : Span) (hk : k ≠ .newline) : Joined (.leaf k span)
  | node (k : Kind) {children : List Skeleton} (hc : ∀ c ∈ children, Joined c) :
      Joined (.node k children)
  | expression {children : List Skeleton}
      (hc : ∀ c ∈ children, (∀ span, c ≠ .leaf .newline span) → Joined c)
      (hb : ∀ before span after, children = before ++ .leaf .newline span :: after →
        Break before after) : Joined (.node .expression children)

/-- The same for some children of an expression. -/
structure Continued (f : List Skeleton) : Prop where
  children : ∀ c ∈ f, (∀ span, c ≠ .leaf .newline span) → Joined c
  breaks : ∀ before span after, f = before ++ .leaf .newline span :: after → Break before after

theorem not_joined_newline (span : Span) : ¬ Joined (.leaf .newline span) := by
  intro h
  cases h with
  | leaf _ hk => exact hk rfl

theorem newline_not_mem {f : List Skeleton} (h : ∀ s ∈ f, Joined s) (span : Span) :
    .leaf .newline span ∉ f := fun hmem => not_joined_newline span (h _ hmem)

theorem Continued.of_joined {f : List Skeleton} (h : ∀ s ∈ f, Joined s) : Continued f := by
  refine ⟨fun c hc _ => h c hc, ?_⟩
  rintro before span after rfl
  exact absurd (List.mem_append_right _ List.mem_cons_self) (newline_not_mem h span)

/-- A line end has its operator and its operand in the same part. -/
theorem Continued.append {f g : List Skeleton} (hf : Continued f) (hg : Continued g) :
    Continued (f ++ g) := by
  refine ⟨List.forall_mem_append.2 ⟨hf.children, hg.children⟩, fun before span after h => ?_⟩
  rcases List.append_eq_append_iff.1 h with ⟨as, rfl, has⟩ | ⟨bs, hbs, hafter⟩
  · obtain ⟨⟨rest, k, sp, blanks, rfl, hk⟩, hoperand⟩ := hg.breaks as span after has
    exact ⟨⟨f ++ rest, k, sp, blanks, (List.append_assoc _ _ _).symm, hk⟩, hoperand⟩
  · cases bs with
    | nil =>
      obtain ⟨⟨rest, k, sp, blanks, hnil, _⟩, _⟩ := hg.breaks [] span after hafter.symm
      simp at hnil
    | cons b bs =>
      obtain ⟨rfl, hrest⟩ := List.cons.inj hafter
      obtain ⟨hoperator, blanks, k, sp, rest, hleaves, hk⟩ := hf.breaks before span bs hbs
      refine ⟨hoperator, blanks, k, sp, rest ++ leavesOf (eventsAll g), ?_, hk⟩
      change after = bs ++ g at hrest
      rw [hrest, eventsAll_append, leavesOf_append, hleaves, List.append_assoc]
      rfl

theorem joined_trivia {v : List Token} (hv : AllTrivia v) : ∀ s ∈ trivia v, Joined s := by
  intro s hs
  obtain ⟨t, ht, rfl⟩ := List.mem_map.1 hs
  refine .leaf _ fun hk => ?_
  have := hv t ht
  rw [hk] at this
  cases this

theorem isBlank_trivia {v : List Token} (hv : AllTrivia v) : ∀ s ∈ trivia v, s.IsBlank := by
  intro s hs
  obtain ⟨t, ht, rfl⟩ := List.mem_map.1 hs
  exact ⟨_, _, rfl, .inl (hv t ht)⟩

theorem leavesOf_blanks {f : List Skeleton} (h : ∀ s ∈ f, s.IsBlank) :
    ∀ l ∈ leavesOf (eventsAll f), l.1.isTrivia = true ∨ l.1 = .newline := by
  induction f with
  | nil => exact List.forall_mem_nil _
  | cons s f ih =>
    obtain ⟨⟨k, span, rfl, hk⟩, hf⟩ := List.forall_mem_cons.1 h
    rw [eventsAll, leavesOf_append]
    refine List.forall_mem_append.2 ⟨?_, ih hf⟩
    exact List.forall_mem_singleton.2 hk

section Split

variable {α : Type} {x : α} {as bs before after : List α}

theorem split_after (hx : x ∉ as) (h : as ++ bs = before ++ x :: after) :
    ∃ cs, before = as ++ cs ∧ bs = cs ++ x :: after := by
  rcases List.append_eq_append_iff.1 h with ⟨cs, hcs, hbs⟩ | ⟨cs, rfl, hcs⟩
  · exact ⟨cs, hcs, hbs⟩
  · cases cs with
    | nil => exact ⟨[], by simp, hcs.symm⟩
    | cons c cs =>
      obtain ⟨rfl, _⟩ := List.cons.inj hcs
      exact absurd (List.mem_append_right _ List.mem_cons_self) hx

theorem split_before (hx : x ∉ bs) (h : as ++ bs = before ++ x :: after) :
    ∃ cs, as = before ++ x :: cs ∧ after = cs ++ bs := by
  rcases List.append_eq_append_iff.1 h with ⟨cs, _, hcs⟩ | ⟨cs, has, hcs⟩
  · rw [hcs] at hx
    exact absurd (List.mem_append_right _ List.mem_cons_self) hx
  · cases cs with
    | nil =>
      rw [show bs = x :: after from hcs.symm] at hx
      exact absurd List.mem_cons_self hx
    | cons c cs =>
      obtain ⟨rfl, hafter⟩ := List.cons.inj hcs
      exact ⟨cs, has, hafter⟩

end Split

/-- An operator, the line ends behind it, and an operand if there are any. -/
theorem continued_operation {v : List Token} {k : Kind} {span : Span} {blanks g : List Skeleton}
    (hv : AllTrivia v) (hk : k = .plus ∨ k = .minus) (hblanks : ∀ s ∈ blanks, s.IsBlank)
    (hg : ∀ s ∈ g, s.Joined) (hoperand : blanks = [] ∨
      ∃ (trivia : List (Kind × Span)) (k : Kind) (span : Span) (rest : List (Kind × Span)),
        leavesOf (eventsAll g) = trivia ++ (k, span) :: rest ∧
        (∀ l ∈ trivia, l.1.isTrivia = true) ∧
        (Grammar.termFirst.contains k.lexedAs = true ∨ Grammar.junk.contains k.lexedAs = true)) :
    Continued ((trivia v ++ [.leaf k span]) ++ (blanks ++ g)) := by
  have hlead : ∀ s ∈ trivia v ++ [.leaf k span], s.Joined := by
    refine List.forall_mem_append.2 ⟨joined_trivia hv, List.forall_mem_singleton.2 (.leaf _ ?_)⟩
    rcases hk with rfl | rfl
    · exact Kind.noConfusion
    · exact Kind.noConfusion
  refine ⟨List.forall_mem_append.2 ⟨fun c hc _ => hlead c hc, List.forall_mem_append.2 ⟨?_,
    fun c hc _ => hg c hc⟩⟩, fun before s after h => ?_⟩
  · intro c hc hne
    obtain ⟨k', sp, rfl, _⟩ := hblanks c hc
    exact .leaf _ fun hk' => hne sp (by rw [hk'])
  · -- the line end is one of those behind the operator
    obtain ⟨cs, rfl, hrest⟩ := split_after (newline_not_mem hlead s) h
    obtain ⟨ds, rfl, rfl⟩ := split_before (newline_not_mem hg s) hrest
    obtain ⟨hcs, hds⟩ := List.forall_mem_append.1 hblanks
    refine ⟨⟨trivia v, k, span, cs, by simp, hk, hcs⟩, ?_⟩
    obtain ⟨triv, k', sp, rest, hleaves, htriv, hk'⟩ := hoperand.resolve_left (by simp)
    refine ⟨leavesOf (eventsAll ds) ++ triv, k', sp, rest, ?_, ?_, hk'⟩
    · rw [eventsAll_append, leavesOf_append, hleaves, List.append_assoc]
    · refine List.forall_mem_append.2 ⟨leavesOf_blanks (List.forall_mem_cons.1 hds).2, ?_⟩
      exact fun l hl => .inl (htriv l hl)

end Skeleton

/-! ## Traces -/

namespace Trace

variable {K : Kind → Prop} {n : Nat} {i j : Input} {xs : List Token} {f : List Skeleton}
  {ds : List Diagnostic}

/-- Where no line end is taken, none is in the tree. -/
theorem joined (hK : ¬ K .newline) (h : Trace K n i xs f ds j) : ∀ s ∈ f, s.Joined := by
  induction h with
  | nil i => exact List.forall_mem_nil _
  | append _ _ ih ih' => exact List.forall_mem_append.2 ⟨ih, ih'⟩
  | token h hk hs =>
    refine List.forall_mem_append.2 ⟨Skeleton.joined_trivia h.trivia, ?_⟩
    rw [List.forall_mem_singleton]
    refine .leaf _ fun hnl => ?_
    cases hs with
    | same => exact hK (hnl ▸ hk)
    | free _ _ => cases hnl
    | sosType _ _ => cases hnl
  | node _ hv _ _ _ _ _ ih =>
    refine List.forall_mem_append.2 ⟨Skeleton.joined_trivia hv, ?_⟩
    rw [List.forall_mem_singleton]
    exact .node _ ih
  | missing e h => exact List.forall_mem_nil _
  | report _ _ _ _ ih => exact ih

/-- What is taken first: the trivia ahead and the next significant token. -/
theorem exists_first {v us : List Token} {t : Token} (h : Trace K n i xs f ds j)
    (hn : i.Next v t us) (hxs : xs ≠ []) : ∃ ys, xs = v ++ t :: ys := by
  have hmem := h.next_mem hn hxs
  have heq := hn.tokens.symm.trans h.tokens_eq
  have hnot : t ∉ v := fun ht => by
    have := hn.trivia t ht
    rw [hn.significant] at this
    cases this
  rcases List.append_eq_append_iff.1 heq with ⟨as, rfl, has⟩ | ⟨bs, rfl, _⟩
  · cases as with
    | nil => exact absurd (by simpa using hmem) hnot
    | cons a as =>
      obtain ⟨rfl, _⟩ := List.cons.inj has
      exact ⟨as, rfl⟩
  · exact absurd (List.mem_append_left _ hmem) hnot

theorem isTrivia_of_shown {v : List Token} {ls : List (Kind × Span)} (hv : AllTrivia v)
    (h : List.Forall₂ Leaf v ls) : ∀ l ∈ ls, l.1.isTrivia = true := by
  induction h with
  | nil => exact List.forall_mem_nil _
  | @cons t l v ls hl _ ih =>
    obtain ⟨ht, hv⟩ := List.forall_mem_cons.1 hv
    refine List.forall_mem_cons.2 ⟨?_, ih hv⟩
    obtain ⟨k, span⟩ := l
    have hshown : t.ShownAs k := hl.shown
    cases hshown with
    | same => exact ht
    | free hk _ =>
      rw [hk] at ht
      cases ht
    | sosType hk _ =>
      rw [hk] at ht
      cases ht

/-- The first significant leaf that is left is the next token. -/
theorem first_leaf {v us : List Token} {t : Token} (h : Trace K n i xs f ds j) (hi : i.Proper)
    (hn : i.Next v t us) (hxs : xs ≠ []) : ∃ blanks k span rest,
      leavesOf (Skeleton.eventsAll f) = blanks ++ (k, span) :: rest ∧
      (∀ l ∈ blanks, l.1.isTrivia = true) ∧ k.lexedAs = t.kind := by
  obtain ⟨ys, rfl⟩ := h.exists_first hn hxs
  obtain ⟨blanks, more, hleaves, hblanks, hmore⟩ := Parallel.forall₂_append_left h.shown
  cases hmore with
  | @cons _ leaf _ rest hleaf _ =>
    exact ⟨blanks, leaf.1, leaf.2, rest, hleaves, isTrivia_of_shown hn.trivia hblanks,
      (hleaf.shown.lexedAs (hi.lexed t hn.mem)).1⟩

end Trace

/-! ## Rules -/

namespace Rule

/-- Wherever a condition holds, a rule leaves a forest with a property. -/
def Leaves {α : Type} (F : List Skeleton → Prop) (n : Nat) (P : Input → Prop) (p : Rule α) : Prop :=
  ∀ i : Input, i.Proper → n ≤ i.taken → P i →
    ∃ f, (p i).output.events = Skeleton.eventsAll f ∧ F f

/-- A property of forests that holds of the parts put together. -/
structure Additive (F : List Skeleton → Prop) : Prop where
  nil : F []
  append : ∀ {f g : List Skeleton}, F f → F g → F (f ++ g)

theorem additive_joined : Additive fun f => ∀ s ∈ f, s.Joined :=
  ⟨List.forall_mem_nil _, fun hf hg => List.forall_mem_append.2 ⟨hf, hg⟩⟩

theorem additive_continued : Additive Skeleton.Continued :=
  ⟨.of_joined (List.forall_mem_nil _), fun hf hg => hf.append hg⟩

namespace Leaves

variable {α β : Type} {F : List Skeleton → Prop} {K : Kind → Prop} {n : Nat} {P P' : Input → Prop}
  {p q : Rule α} {Q : α → Input → Prop} {f : α → Rule β}

theorem pre (h : Leaves F n P p) (hP : ∀ i, P' i → P i) : Leaves F n P' p :=
  fun i hi hn hPi => h i hi hn (hP i hPi)

/-- A rule that takes no line end. -/
theorem of_spec (h : Spec K n P p Q) (hK : ¬ K .newline) :
    Leaves (fun f => ∀ s ∈ f, s.Joined) n P p := by
  intro i hi hn hPi
  obtain ⟨xs, f, ht, he⟩ := (h i hi hn hPi).trace
  exact ⟨f, he, ht.joined hK⟩

theorem continued (h : Leaves (fun f => ∀ s ∈ f, s.Joined) n P p) :
    Leaves Skeleton.Continued n P p := by
  intro i hi hn hPi
  obtain ⟨f, he, hf⟩ := h i hi hn hPi
  exact ⟨f, he, .of_joined hf⟩

theorem pure (hF : Additive F) (a : α) : Leaves F n P (Pure.pure a : Rule α) :=
  fun _ _ _ _ => ⟨[], rfl, hF.nil⟩

theorem bind (hF : Additive F) (hs : Spec K n P p Q) (hp : Leaves F n P p)
    (hf : ∀ a, Leaves F n (Q a) (f a)) : Leaves F n P (p >>= f) := by
  intro i hi hn hPi
  have h := hs i hi hn hPi
  obtain ⟨g, he, hg⟩ := hp i hi hn hPi
  obtain ⟨g', he', hg'⟩ := hf _ _ (h.proper hi) (Nat.le_trans hn h.taken_le) h.post
  refine ⟨g ++ g', ?_, hF.append hg hg'⟩
  rw [bind_run, Output.events_append, he, he', Skeleton.eventsAll_append]

theorem andPure (h : Leaves F n P p) (b : β) : Leaves F n P (p >>= fun _ => Pure.pure b) := by
  intro i hi hn hPi
  rw [bind_pure_run]
  exact h i hi hn hPi

theorem ite {c : Prop} [Decidable c] (h₁ : c → Leaves F n P p) (h₂ : ¬ c → Leaves F n P q) :
    Leaves F n P (if c then p else q) := by
  by_cases hc : c
  · rw [if_pos hc]
    exact h₁ hc
  · rw [if_neg hc]
    exact h₂ hc

/-- A look ahead and what follows. -/
theorem look {g : Input → α} (hf : ∀ a, Leaves F n (fun i => P i ∧ a = g i) (f a)) :
    Leaves F n P ((fun i => ⟨g i, {}, i⟩ : Rule α) >>= f) :=
  fun i hi hn hPi => hf (g i) i hi hn ⟨hPi, rfl⟩

theorem ifAt {s : KindSet} (h₁ : Leaves F n (fun i => P i ∧ At s i) p)
    (h₂ : Leaves F n (fun i => P i ∧ ¬ At s i) q) :
    Leaves F n P (atSet s >>= fun b => if b = true then p else q) := by
  refine look (g := fun i => s.contains (i.peek 0).kind) fun a => ite (fun ha => h₁.pre ?_)
    fun ha => h₂.pre ?_
  · rintro i ⟨h, rfl⟩
    exact ⟨h, ha⟩
  · rintro i ⟨h, rfl⟩
    exact ⟨h, ha⟩

/-- A node around a rule: what is left is the trivia in front and the node. -/
theorem nodeOf {body : Rule Kind} {F' : List Skeleton → Prop} (hP : Stable P)
    (hne : ∀ i, P i → (i.peek 0).kind ≠ .eof) (hb : ∀ m, n ≤ m → Leaves F m P body)
    (hF : ∀ i v f, AllTrivia v → F f → F' (Skeleton.trivia v ++ [.node (body i).value f])) :
    Leaves F' n P (Rule.nodeOf body) := by
  intro i hi hn hPi
  obtain ⟨v, t, us, hnext, _⟩ := hi.exists_next (hne i hPi)
  have hi' : (i.advance (t :: us)).Proper := hi.of_suffix rfl ⟨v, hnext.tokens.symm⟩
  obtain ⟨f, he, hf⟩ := hb i.taken hn _ hi' (Nat.le_refl _) (hP i _ hnext.peek_advance rfl hPi)
  refine ⟨_, ?_, hF (i.advance (t :: us)) v f hnext.trivia hf⟩
  rw [nodeOf_run hnext.tokens hnext.trivia hnext.head?, Skeleton.eventsAll_append,
    Skeleton.eventsAll_trivia, Skeleton.eventsAll_singleton, Skeleton.events, ← he]
  rfl

theorem repeatWhile {step : Rule Bool} {I : Input → Prop} (hF : Additive F)
    (hs : ∀ m, n ≤ m → Spec K m I step fun b j => I j ∧ (b = true → m < j.taken))
    (hl : ∀ m, n ≤ m → Leaves F m I step) : Leaves F n I (Rule.repeatWhile step) := by
  intro i
  induction hlen : i.tokens.length using Nat.strongRecOn generalizing i with
  | ind len ih =>
    intro hi hn hI
    have hstep := hs i.taken hn i hi (Nat.le_refl _) hI
    obtain ⟨f, he, hf⟩ := hl i.taken hn i hi (Nat.le_refl _) hI
    cases hv : (step i).value with
    | false =>
      rw [repeatWhile_neg (by simp [hv])]
      exact ⟨f, he, hf⟩
    | true =>
      have hlt := hstep.length_lt (hstep.post.2 hv)
      obtain ⟨g, he', hg⟩ :=
        ih _ (hlen ▸ hlt) _ rfl (hstep.proper hi) (Nat.le_trans hn hstep.taken_le) hstep.post.1
      refine ⟨f ++ g, ?_, hF.append hf hg⟩
      rw [repeatWhile_pos hv hlt, Output.events_append, he, he', Skeleton.eventsAll_append]

end Leaves

/-! ## Expressions -/

theorem inline_isInline : Inline fun k => k.isInline = true := fun _ h => h

theorem bumpTimes_blanks (l : Nat) {i : Input} (hi : i.Proper)
    (h : ∀ m < l, (i.peek m).kind = .newline) :
    ∃ f, (bumpTimes l i).output.events = Skeleton.eventsAll f ∧ (∀ s ∈ f, s.IsBlank) ∧
      (bumpTimes l i).rest.Proper ∧ (bumpTimes l i).rest.peek 0 = i.peek l := by
  induction l generalizing i with
  | zero => exact ⟨[], rfl, List.forall_mem_nil _, hi, rfl⟩
  | succ l ih =>
    have hk := h 0 (Nat.succ_pos l)
    obtain ⟨v, t, us, hn, _⟩ := hi.exists_next (by rw [hk]; exact Kind.noConfusion)
    rw [hn.peek_zero] at hk
    have hrun : bump i = ⟨(), .trivia v ++ .token .newline t.span, i.after t us⟩ := by
      rw [bump_eq, bumpAs_next hn (hi.ne_eof hn.mem), hn.peek_zero, hk]
    have hpeek : ∀ m, (i.after t us).peek m = i.peek (m + 1) := fun m => (hn.peek_succ m).symm
    have hi' : (i.after t us).Proper := by
      refine hi.of_suffix rfl ⟨v ++ [t], ?_⟩
      rw [hn.tokens, List.append_assoc]
      rfl
    obtain ⟨f, he, hf, hproper, hlast⟩ := ih hi' fun m hm => by
      rw [hpeek]
      exact h (m + 1) (Nat.succ_lt_succ hm)
    have hall : bumpTimes (l + 1) i = ⟨(), (.trivia v ++ .token .newline t.span) ++
        (bumpTimes l (i.after t us)).output, (bumpTimes l (i.after t us)).rest⟩ := by
      rw [bumpTimes, bind_run, hrun]
    rw [hall]
    refine ⟨(Skeleton.trivia v ++ [.leaf .newline t.span]) ++ f, ?_, ?_, hproper, ?_⟩
    · rw [Output.events_append, eventsAll_token, he, ← Skeleton.eventsAll_append]
    · refine List.forall_mem_append.2 ⟨List.forall_mem_append.2 ⟨Skeleton.isBlank_trivia hn.trivia,
        ?_⟩, hf⟩
      exact List.forall_mem_singleton.2 ⟨_, _, rfl, .inr rfl⟩
    · rw [hlast, hpeek]

/-- What an operator is followed by: line ends, and, if there are any, an operand. -/
theorem flatOperand_forest {i : Input} (hi : i.Proper) (htaken : 0 < i.taken) :
    ∃ blanks g, (flatOperand i).output.events = Skeleton.eventsAll (blanks ++ g) ∧
      (∀ s ∈ blanks, s.IsBlank) ∧ (∀ s ∈ g, s.Joined) ∧ (blanks = [] ∨
        ∃ (trivia : List (Kind × Span)) (k : Kind) (span : Span) (rest : List (Kind × Span)),
          leavesOf (Skeleton.eventsAll g) = trivia ++ (k, span) :: rest ∧
          (∀ l ∈ trivia, l.1.isTrivia = true) ∧
          (Grammar.termFirst.contains k.lexedAs = true ∨
            Grammar.junk.contains k.lexedAs = true)) := by
  have htail := fun n => spec_operandTail (n := n) inline_isInline
  have hnot : ¬ Kind.isInline .newline = true := by decide
  have hrun : (flatOperand i).output.events = (continueLine i).output.events ++
      (operandTail (continueLine i).rest).output.events := rfl
  by_cases hc : 0 < Input.newlineRun i.tokens ∧
      (Grammar.termFirst.contains (i.peek (Input.newlineRun i.tokens)).kind = true ∨
        Grammar.junk.contains (i.peek (Input.newlineRun i.tokens)).kind = true)
  · -- the next line goes on with an operand, so one is taken there
    have hline : continueLine i = bumpTimes (Input.newlineRun i.tokens) i := if_pos hc
    obtain ⟨blanks, he, hblanks, hproper, hpeek⟩ :=
      bumpTimes_blanks _ hi (kind_nth_newlineRun i.eof i.tokens)
    rw [← hline] at he hproper hpeek
    have hat : At Grammar.termFirst (continueLine i).rest ∨ At Grammar.junk (continueLine i).rest := by
      rw [At, At, hpeek]
      exact hc.2
    have hspec := htail _ (continueLine i).rest hproper (Nat.le_refl _) (.inl hat)
    obtain ⟨xs, g, ht, hg⟩ := hspec.trace
    have hne : ((continueLine i).rest.peek 0).kind ≠ .eof := by
      rcases hat with h | h
      · exact ne_eof_of_inline (inline_termFirst _ h)
      · exact ne_eof_of_inline (inline_junk _ h)
    obtain ⟨v, t, us, hn, _⟩ := hproper.exists_next hne
    obtain ⟨trivia, k, span, rest, hleaves, htrivia, hk⟩ :=
      ht.first_leaf hproper hn (ht.taken_lt_iff.1 hspec.post)
    refine ⟨blanks, g, ?_, hblanks, ht.joined hnot, .inr ⟨trivia, k, span, rest, hleaves, htrivia, ?_⟩⟩
    · rw [hrun, he, hg, Skeleton.eventsAll_append]
    · rw [hk, ← hn.peek_zero]
      exact hat
  · have hline : continueLine i = ⟨(), {}, i⟩ := if_neg hc
    obtain ⟨xs, g, ht, hg⟩ := (htail (i.taken - 1) i hi (by omega) (.inr (by omega))).trace
    refine ⟨[], g, ?_, List.forall_mem_nil _, ht.joined hnot, .inl rfl⟩
    rw [hrun, hline, hg]
    rfl

/-- An operator and its operand. -/
theorem leaves_operation {n : Nat} :
    Leaves Skeleton.Continued n (fun i => At Grammar.signs i) (bump >>= fun _ => flatOperand) := by
  intro i hi _ hat
  obtain ⟨v, t, us, hn, _⟩ := hi.exists_next (ne_eof_of_inline (inline_signs _ hat))
  have hk : t.kind = .plus ∨ t.kind = .minus := by
    rw [At, hn.peek_zero] at hat
    exact Grammar.contains_signs.1 hat
  have hi' : (i.after t us).Proper := by
    refine hi.of_suffix rfl ⟨v ++ [t], ?_⟩
    rw [hn.tokens, List.append_assoc]
    rfl
  obtain ⟨blanks, g, he, hblanks, hg, hoperand⟩ := flatOperand_forest hi' (Nat.succ_pos i.taken)
  have hrun : bump i = ⟨(), .trivia v ++ .token t.kind t.span, i.after t us⟩ := by
    rw [bump_eq, bumpAs_next hn (hi.ne_eof hn.mem), hn.peek_zero]
  refine ⟨(Skeleton.trivia v ++ [.leaf t.kind t.span]) ++ (blanks ++ g), ?_, ?_⟩
  · rw [bind_run, hrun, Output.events_append, eventsAll_token, he, ← Skeleton.eventsAll_append]
  · exact Skeleton.continued_operation hn.trivia hk hblanks hg hoperand

theorem leaves_expressionStep {n : Nat} :
    Leaves Skeleton.Continued n (fun _ => True) expressionStep := by
  have hnot : ¬ Kind.isInline .newline = true := by decide
  rw [expressionStep_eq]
  refine .look (g := fun i => i.peek 0) fun t => .ite (fun ht => ?_) fun _ => .ite (fun ht => ?_)
    fun _ => .ite (fun ht => ?_) fun _ => .pure additive_continued _
  · have hrule : (bump >>= fun _ => flatOperand >>= fun _ => (pure true : Rule Bool)) =
        (bump >>= fun _ => flatOperand) >>= fun _ => pure true := (bind_assoc _ _ _).symm
    rw [hrule]
    refine (leaves_operation.andPure true).pre ?_
    rintro i ⟨_, rfl⟩
    rwa [Grammar.isSome_operator?] at ht
  · refine ((Leaves.of_spec (spec_term inline_isInline) hnot).continued.andPure true).pre ?_
    rintro i ⟨_, rfl⟩
    rw [isSignedLiteral, Bool.and_eq_true] at ht
    exact Grammar.contains_termFirst.2 (.inr (.inl ht.1))
  · refine ((Leaves.of_spec (spec_skipToken inline_isInline (P := At Grammar.junk) _
      fun _ h => h) hnot).continued.andPure true).pre ?_
    rintro i ⟨_, rfl⟩
    exact ht

/-- **The line ends of an expression stand between an operator and its operand.** -/
theorem leaves_expression {n : Nat} {P : Input → Prop} :
    Leaves (fun f => ∀ s ∈ f, s.Joined) n P expression := by
  have hK : Inline fun _ => True := fun _ _ => trivial
  have hnot : ¬ Kind.isInline .newline = true := by decide
  refine .ifAt ?_ (.pure additive_joined _)
  refine (Leaves.andPure (P := At Grammar.termFirst) (.nodeOf (F := Skeleton.Continued) (stable_at _)
    (fun i h => ne_eof_of_inline (inline_termFirst _ h)) (fun m _ => .andPure ?_ _) ?_) true).pre
      fun i h => h.2
  · refine .bind (Q := fun _ _ => True) additive_continued
      ((spec_term hK).post fun _ _ _ => trivial)
      (Leaves.of_spec (spec_term inline_isInline) hnot).continued fun _ => ?_
    refine .repeatWhile (K := fun _ => True) additive_continued (fun l _ => ?_)
      fun l _ => leaves_expressionStep
    exact (spec_expressionStep hK trivial).post fun _ _ h => ⟨trivial, h⟩
  · intro i v f hv hf
    refine List.forall_mem_append.2 ⟨Skeleton.joined_trivia hv, ?_⟩
    exact List.forall_mem_singleton.2 (.expression hf.children hf.breaks)

/-! ## Statements -/

/-- A label, an expression and what follows on the same line. -/
theorem Labelled.leaves {p : Rule Unit} {n : Nat} (h : Labelled p) :
    Leaves (fun f => ∀ s ∈ f, s.Joined) n (At Grammar.termFirst) p := by
  obtain ⟨separators, f, rfl, hs, hf⟩ := h
  have hK : Inline fun _ => True := fun _ _ => trivial
  have hnot : ¬ Kind.isInline .newline = true := by decide
  refine .nodeOf (F := fun f => ∀ s ∈ f, s.Joined) (stable_at _)
    (fun i h => ne_eof_of_inline (inline_termFirst _ h)) (fun m _ => ?_) ?_
  · refine .bind additive_joined (spec_label (R := fun _ => True) hK hs fun _ _ _ _ _ => trivial)
      (.of_spec (spec_label (R := fun _ => True) inline_isInline hs fun _ _ _ _ _ => trivial) hnot)
      fun _ => .bind additive_joined (spec_expression hK trivial) leaves_expression fun found =>
        (Leaves.of_spec (hf _ m found inline_isInline) hnot).pre ?_
    rintro i (⟨_, h⟩ | ⟨_, ⟨h, _⟩ | ⟨h, _⟩, hend⟩)
    · exact h
    · exact absurd h hend
    · exact h
  · intro i v f hv hf
    refine List.forall_mem_append.2 ⟨Skeleton.joined_trivia hv, ?_⟩
    exact List.forall_mem_singleton.2 (.node _ hf)

theorem leaves_statementBody (rule : StatementRule) {n : Nat} :
    Leaves (fun f => ∀ s ∈ f, s.Joined) n (At rule.first) (statementBody rule) := by
  have hnot : ¬ Kind.isInline .newline = true := by decide
  have hne : ∀ i, At rule.first i → (i.peek 0).kind ≠ .eof :=
    fun i h => ne_eof_of_inline (inline_first rule _ h)
  cases rule with
  | implicit => exact labelled_implicit.leaves
  | objective => exact labelled_objective.leaves
  | constraint => exact labelled_constraint.leaves
  | bound => exact .of_spec ((wraps_bound inline_isInline).spec (stable_at _) hne) hnot
  | declaration => exact .of_spec ((wraps_declaration inline_isInline).spec (stable_at _) hne) hnot
  | sos =>
    exact (Leaves.of_spec (spec_sosItem inline_isInline) hnot).pre fun i h => eq_ident_of_first h

/-- **The line ends of a statement stand in expressions, between an operator and its operand.** -/
theorem leaves_statement (rule : StatementRule) {n : Nat} :
    Leaves (fun f => ∀ s ∈ f, s.Joined) n (fun i => ¬ At Grammar.statementEnd i)
      (statement rule) := by
  have hnot : ¬ Kind.isInline .newline = true := by decide
  have hchoice : Leaves (fun f => ∀ s ∈ f, s.Joined) n (fun i => ¬ At Grammar.statementEnd i)
      (statementChoice rule) := by
    refine .ifAt ((leaves_statementBody rule).pre fun i h => h.2) ?_
    exact .of_spec (Spec.recover inline_isInline.skips _ fun i h => .inl h.1) hnot
  intro i hi hn h
  rw [statement_eq rule hi h]
  exact hchoice i hi hn h

/-- What a statement does that starts at a token: it takes a significant token and stops where a
statement ends, it takes no section keyword, and line ends only to continue an expression; all this
without the safeguard against standing still. -/
structure Completes (rule : StatementRule) (i : Input) : Prop where
  takes : i.taken < (statement rule i).rest.taken
  stops : At Grammar.statementEnd (statement rule i).rest
  leaves : ∃ xs f, i.tokens = xs ++ (statement rule i).rest.tokens ∧
    (statement rule i).output.events = Skeleton.eventsAll f ∧
    List.Forall₂ Trace.Leaf xs (leavesOf (Skeleton.eventsAll f)) ∧
    (∀ t ∈ xs, t.kind.isSectionKeyword = false) ∧ ∀ s ∈ f, s.Joined
  unforced : statement rule i = statementChoice rule i

theorem completes (rule : StatementRule) {i : Input} (hi : i.Proper)
    (h : ¬ At Grammar.statementEnd i) : Completes rule i := by
  have hspec := spec_statement (K := fun k => k.isInline = true ∨ k = .newline)
    (fun _ h => .inl h) rule (fun _ => .inr rfl) i hi (Nat.le_refl i.taken) h
  obtain ⟨hlt, hend⟩ := hspec.post
  obtain ⟨xs, f, ht, he⟩ := hspec.trace
  obtain ⟨g, hg, hjoined⟩ := leaves_statement rule i hi (Nat.le_refl i.taken) h
  obtain rfl : f = g := Skeleton.eventsAll_injective (he.symm.trans hg)
  refine ⟨hlt, hend, ⟨xs, f, ht.tokens_eq, he, ht.shown, fun t hmem => ?_, hjoined⟩,
    statement_eq rule hi h⟩
  by_cases htrivia : t.kind.isTrivia = true
  · exact Kind.not_isSectionKeyword_of_isInline (Kind.isInline_of_isTrivia htrivia)
  · obtain hk | hk := ht.kinds t hmem (by simpa using htrivia)
    · exact Kind.not_isSectionKeyword_of_isInline hk
    · rw [hk]
      rfl

/-! ## Loops over statements -/

/-- A loop run without any other reason to stop than the answer of its step: every round but the last
takes a significant token, and the result is the given one. -/
inductive Unrolls (step : Rule Bool) : Input → Outcome Unit → Prop where
  | stop {i : Input} (h : (step i).value = false) :
      Unrolls step i ⟨(), (step i).output, (step i).rest⟩
  | again {i : Input} {r : Outcome Unit} (h : (step i).value = true)
      (htaken : i.taken < (step i).rest.taken) (hr : Unrolls step (step i).rest r) :
      Unrolls step i ⟨(), (step i).output ++ r.output, r.rest⟩

theorem unrolls_of_spec {step : Rule Bool} (hs : ∀ n, Spec (fun _ => True) n (fun _ => True) step
    fun b j => b = true → n < j.taken) (i : Input) (hi : i.Proper) :
    Unrolls step i (repeatWhile step i) := by
  induction hlen : i.tokens.length using Nat.strongRecOn generalizing i with
  | ind len ih =>
    have hstep := hs i.taken i hi (Nat.le_refl _) trivial
    cases hv : (step i).value with
    | false =>
      rw [repeatWhile_neg (by simp [hv])]
      exact .stop hv
    | true =>
      have hlt := hstep.length_lt (hstep.post hv)
      rw [repeatWhile_pos hv hlt]
      exact .again hv (hstep.post hv) (ih _ (hlen ▸ hlt) _ (hstep.proper hi) rfl)

end Rule

open Rule in
/-- **Statements take something and stop at their ends, and the loops over them end**: this holds of
every statement rule at every place of every text, and of every loop of a document; so a document is
read to its end. -/
theorem statement_completes (text : Text) :
    (∀ (offset takenEnd : Nat) (mode : Mode) (rule : StatementRule),
      ¬ At Grammar.statementEnd (.ofText text offset takenEnd mode) →
      Completes rule (.ofText text offset takenEnd mode)) ∧
    (∀ i : Input, i.Proper → (∀ rule, Unrolls (bodyStep rule) i (body rule i)) ∧
      Unrolls sectionsStep i (sections i) ∧ Unrolls afterEndStep i (afterEnd i)) ∧
    (document (.start text)).rest.tokens = [] := by
  have hK : Inline fun _ => True := fun _ _ => trivial
  refine ⟨fun offset takenEnd mode rule h => completes rule (Input.proper_ofText ..) h,
    fun i hi => ⟨fun rule => ?_, ?_, ?_⟩, ?_⟩
  · exact unrolls_of_spec (fun n => (spec_bodyStep hK trivial rule).post fun _ _ h => h.1) i hi
  · exact unrolls_of_spec (fun n => (spec_sectionsStep hK (fun _ _ => trivial) trivial trivial).post
      fun _ _ h => h.1) i hi
  · exact unrolls_of_spec (fun n => (spec_afterEndStep hK.skips (fun _ _ => trivial) trivial).post
      fun _ _ h => h.1) i hi
  · exact congrArg (·.rest.tokens) (document_run (Input.proper_ofText text 0 0 .statementStart))

/-- An objective that goes on after a line end. -/
theorem statement_completes_sum :
    ¬ Rule.At Grammar.statementEnd (.ofText ['x', '+', '\n', 'y'] 0 0 .statementStart) ∧
      Rule.Completes .objective (.ofText ['x', '+', '\n', 'y'] 0 0 .statementStart) ∧
      (Rule.statement .objective (.ofText ['x', '+', '\n', 'y'] 0 0 .statementStart)).rest.tokens =
        [] := by
  have hat : ¬ Grammar.statementEnd.contains
      ((Input.ofText ['x', '+', '\n', 'y'] 0 0 .statementStart).peek 0).kind = true := by
    decide +kernel
  exact ⟨hat, (statement_completes _).1 0 0 .statementStart .objective hat, by decide +kernel⟩

end LpFormat
