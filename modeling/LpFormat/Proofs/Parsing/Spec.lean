import LpFormat.Proofs.Parsing.Parallel

/-!
# Specifications of rules

A specification says of a rule, started where a condition holds, that it leaves a trace, that another
condition holds where it ends, and that it reads inputs alike that a comparison puts side by side.
Each way to build a rule has one lemma here; no later proof about rules opens the steps themselves.

* `Rule.Conforms`, `Rule.Spec`;
* `Rule.Spec.pure`, `Rule.Spec.bind`, `Rule.Spec.ite`, `Rule.Spec.branch`: values and choices;
* `Rule.Spec.bumpAs`, `Rule.Spec.node`, `Rule.Spec.repeatWhile`: tokens, nodes and loops;
* `Rule.Spec.missing`, `Rule.Spec.skipToken`, `Rule.Spec.recover`: diagnostics and recovery.
-/

namespace LpFormat

/-- Outcomes that differ by the move of a comparison only. -/
structure Parallel.Outcomes {α : Type} (C : Parallel) (r r' : Outcome α) : Prop where
  value : r'.value = r.value
  output : C.Outputs r.output r'.output
  rest : C.Inputs r.rest r'.rest

namespace Rule

/-- All kinds that may occur inside one line are admitted. -/
def Inline (K : Kind → Prop) : Prop := ∀ k : Kind, k.isInline = true → K k

/-- All kinds that are needed to skip the rest of a statement are admitted. -/
structure Skips (K : Kind → Prop) : Prop where
  node : K .errorNode
  tokens : ∀ k : Kind, k.isLexed = true → Grammar.statementEnd.contains k = false → K k

theorem Inline.skips {K : Kind → Prop} (hK : Inline K) : Skips K :=
  ⟨hK _ rfl, fun k hlexed hend => hK k (Kind.isInline_of_isLexed hlexed hend)⟩

/-- What a rule does in one place. -/
structure Conforms {α : Type} (K : Kind → Prop) (n : Nat) (p : Rule α) (Q : α → Input → Prop)
    (i : Input) : Prop where
  trace : ∃ xs f, Trace K n i xs f (p i).output.diagnostics (p i).rest ∧
    (p i).output.events = Skeleton.eventsAll f
  post : Q (p i).value (p i).rest
  alike : ∀ (C : Parallel) (i' : Input), C.Fenced → C.Inputs i i' →
    C.tail.length ≤ (p i).rest.tokens.length → C.Outcomes (p i) (p i')

/-- What a rule does wherever a condition holds. -/
def Spec {α : Type} (K : Kind → Prop) (n : Nat) (P : Input → Prop) (p : Rule α)
    (Q : α → Input → Prop) : Prop :=
  ∀ i : Input, i.Proper → n ≤ i.taken → P i → Conforms K n p Q i

/-- The next token belongs to a set. -/
def At (s : KindSet) (i : Input) : Prop := s.contains (i.peek 0).kind = true

/-- Both inputs of a comparison give the same answer. -/
def Steady {α : Type} (g : Input → α) : Prop :=
  ∀ (C : Parallel) (i i' : Input), C.Fenced → C.Inputs i i' → g i' = g i

/-- Both inputs of a comparison give the same answer where a condition holds. -/
def SteadyOn {α : Type} (P : Input → Prop) (g : Input → α) : Prop :=
  ∀ (C : Parallel) (i i' : Input), C.Fenced → C.Inputs i i' → P i → g i' = g i

theorem Steady.on {α : Type} {g : Input → α} (h : Steady g) (P : Input → Prop) : SteadyOn P g :=
  fun C i i' hC hi _ => h C i i' hC hi

theorem steady_kind : Steady fun i => (i.peek 0).kind := fun _ _ _ hf h => (h.peek_zero hf).kind

theorem steady_at (s : KindSet) : Steady (At s) := fun _ _ _ hf h => by
  rw [At, At, (h.peek_zero hf).kind]

/-- A condition on the tokens ahead and the number of tokens taken. -/
def Stable (P : Input → Prop) : Prop :=
  ∀ i j : Input, (∀ m, j.peek m = i.peek m) → j.taken = i.taken → P i → P j

theorem stable_at (s : KindSet) : Stable (At s) := fun i j hp _ h => by
  rwa [At, hp 0]

theorem bind_run {α β : Type} (p : Rule α) (f : α → Rule β) (i : Input) :
    (p >>= f) i = ⟨(f (p i).value (p i).rest).value,
      (p i).output ++ (f (p i).value (p i).rest).output, (f (p i).value (p i).rest).rest⟩ := rfl

theorem bind_pure_run {α β : Type} (p : Rule α) (b : β) (i : Input) :
    (p >>= fun _ => pure b) i = ⟨b, (p i).output, (p i).rest⟩ := by
  rw [bind_run]
  change (⟨b, (p i).output ++ {}, (p i).rest⟩ : Outcome β) = _
  rw [Output.append_empty]

theorem bind_assoc {α β γ : Type} (p : Rule α) (f : α → Rule β) (g : β → Rule γ) :
    p >>= f >>= g = p >>= fun a => f a >>= g := by
  funext i
  simp only [bind_run, Output.append_assoc]

section Basic

variable {α β : Type} {K : Kind → Prop} {n : Nat} {P P' : Input → Prop} {p q : Rule α}
  {Q Q' : α → Input → Prop} {R : β → Input → Prop} {f : α → Rule β}

theorem Conforms.length_le {i : Input} (h : Conforms K n p Q i) :
    (p i).rest.tokens.length ≤ i.tokens.length := by
  obtain ⟨xs, f, ht, _⟩ := h.trace
  rw [ht.tokens_eq, List.length_append]
  exact Nat.le_add_left _ _

theorem Conforms.proper {i : Input} (h : Conforms K n p Q i) (hi : i.Proper) :
    (p i).rest.Proper := by
  obtain ⟨xs, f, ht, _⟩ := h.trace
  exact ht.proper hi

theorem Conforms.taken_le {i : Input} (h : Conforms K n p Q i) : i.taken ≤ (p i).rest.taken := by
  obtain ⟨xs, f, ht, _⟩ := h.trace
  exact ht.taken_le

/-- A rule that takes significant tokens leaves fewer tokens. -/
theorem Conforms.length_lt {i : Input} (h : Conforms K n p Q i)
    (hlt : i.taken < (p i).rest.taken) : (p i).rest.tokens.length < i.tokens.length := by
  obtain ⟨xs, f, ht, _⟩ := h.trace
  have hxs := List.length_pos_iff.2 (ht.taken_lt_iff.1 hlt)
  rw [ht.tokens_eq, List.length_append]
  omega

theorem Conforms.weaken {i : Input} (h : Conforms K n p Q i)
    (hQ : Q (p i).value (p i).rest → Q' (p i).value (p i).rest) : Conforms K n p Q' i :=
  ⟨h.trace, hQ h.post, h.alike⟩

theorem Conforms.mono {K' : Kind → Prop} {m : Nat} {i : Input} (h : Conforms K n p Q i)
    (hK : ∀ k, K k → K' k) (hm : m ≤ n) : Conforms K' m p Q i := by
  obtain ⟨xs, f, ht, he⟩ := h.trace
  exact ⟨⟨xs, f, ht.mono hK hm, he⟩, h.post, h.alike⟩

/-- Rules in sequence. -/
theorem Conforms.bind {i : Input} (hp : Conforms K n p Q i)
    (hf : Conforms K n (f (p i).value) R (p i).rest) : Conforms K n (p >>= f) R i := by
  obtain ⟨xs, F, ht, he⟩ := hp.trace
  obtain ⟨ys, G, ht', he'⟩ := hf.trace
  refine ⟨⟨xs ++ ys, F ++ G, ht.append ht', ?_⟩, hf.post, fun C i' hC hi hl => ?_⟩
  · rw [Skeleton.eventsAll_append, ← he, ← he']
    rfl
  · have h₁ := hp.alike C i' hC hi (Nat.le_trans hl hf.length_le)
    have h₂ := hf.alike C (p i').rest hC h₁.rest hl
    have hbind : (p >>= f) i' = ⟨(f (p i).value (p i').rest).value,
        (p i').output ++ (f (p i).value (p i').rest).output,
        (f (p i).value (p i').rest).rest⟩ := by
      rw [bind_run, h₁.value]
    rw [hbind]
    exact ⟨h₂.value, h₁.output.append h₂.output, h₂.rest⟩

namespace Spec

theorem weaken (h : Spec K n P p Q) (hP : ∀ i, P' i → P i) (hQ : ∀ a i, Q a i → Q' a i) :
    Spec K n P' p Q' :=
  fun i hi hn hPi => (h i hi hn (hP i hPi)).weaken (hQ _ _)

theorem post (h : Spec K n P p Q) (hQ : ∀ a i, Q a i → Q' a i) : Spec K n P p Q' :=
  h.weaken (fun _ h => h) hQ

theorem pre (h : Spec K n P p Q) (hP : ∀ i, P' i → P i) : Spec K n P' p Q :=
  h.weaken hP fun _ _ h => h

/-- Tokens once taken stay taken. -/
theorem frame (h : Spec K n P p Q) (m : Nat) :
    Spec K n (fun i => P i ∧ m < i.taken) p fun a j => Q a j ∧ m < j.taken :=
  fun i hi hn hPi => (h i hi hn hPi.1).weaken fun hQ =>
    ⟨hQ, Nat.lt_of_lt_of_le hPi.2 (h i hi hn hPi.1).taken_le⟩

theorem pure {a : α} (h : ∀ i, P i → Q a i) : Spec K n P (Pure.pure a) Q := fun i _ _ hPi =>
  ⟨⟨[], [], .nil i, rfl⟩, h i hPi, fun _ _ _ hi _ => ⟨rfl, .empty, hi⟩⟩

theorem bind (hp : Spec K n P p Q) (hf : ∀ a, Spec K n (Q a) (f a) R) :
    Spec K n P (p >>= f) R := fun i hi hn hPi => by
  have h := hp i hi hn hPi
  exact h.bind (hf _ _ (h.proper hi) (Nat.le_trans hn h.taken_le) h.post)

theorem ite {c : Prop} [Decidable c] (h₁ : c → Spec K n P p Q) (h₂ : ¬ c → Spec K n P q Q) :
    Spec K n P (if c then p else q) Q := by
  by_cases hc : c
  · rw [if_pos hc]
    exact h₁ hc
  · rw [if_neg hc]
    exact h₂ hc

/-- A look ahead. -/
theorem test {g : Input → α} (hg : SteadyOn P g) :
    Spec K n P (fun i => ⟨g i, {}, i⟩) fun a i => P i ∧ a = g i := fun i _ _ hPi =>
  ⟨⟨[], [], .nil i, rfl⟩, ⟨hPi, rfl⟩, fun C i' hC hi _ => ⟨hg C i i' hC hi hPi, .empty, hi⟩⟩

theorem atSet (s : KindSet) : Spec K n P (Rule.atSet s) fun _ => P :=
  (test (g := fun i => s.contains (i.peek 0).kind) fun C i i' hC hi _ => by
    simp only [(hi.peek_zero hC).kind]).post fun _ _ h => h.1

/-- A choice that depends on what is ahead. -/
theorem branch {c : Input → Prop} [∀ i, Decidable (c i)] (hc : Steady c)
    (h₁ : Spec K n (fun i => P i ∧ c i) p Q) (h₂ : Spec K n (fun i => P i ∧ ¬ c i) q Q) :
    Spec K n P (fun i => (if c i then p else q) i) Q := fun i hi hn hPi => by
  have hc' : ∀ (C : Parallel) (i' : Input), C.Fenced → C.Inputs i i' → (c i' ↔ c i) :=
    fun C i' hC hi' => iff_of_eq (hc C i i' hC hi')
  by_cases h : c i
  · have hp := h₁ i hi hn ⟨hPi, h⟩
    refine ⟨?_, ?_, fun C i' hC hi' hl => ?_⟩
    · simpa only [if_pos h] using hp.trace
    · simpa only [if_pos h] using hp.post
    · simp only [if_pos h, if_pos ((hc' C i' hC hi').2 h)] at hl ⊢
      exact hp.alike C i' hC hi' hl
  · have hp := h₂ i hi hn ⟨hPi, h⟩
    refine ⟨?_, ?_, fun C i' hC hi' hl => ?_⟩
    · simpa only [if_neg h] using hp.trace
    · simpa only [if_neg h] using hp.post
    · simp only [if_neg h, if_neg (mt (hc' C i' hC hi').1 h)] at hl ⊢
      exact hp.alike C i' hC hi' hl

/-- A choice by the next token. -/
theorem ifAt {s : KindSet} (h₁ : Spec K n (fun i => P i ∧ At s i) p Q)
    (h₂ : Spec K n (fun i => P i ∧ ¬ At s i) q Q) :
    Spec K n P (Rule.atSet s >>= fun b => if b = true then p else q) Q :=
  branch (c := fun i => s.contains (i.peek 0).kind = true) (steady_at s) h₁ h₂

/-- A choice by the kind of the next token. -/
theorem ifKind {k : Kind} (h₁ : Spec K n (fun i => P i ∧ (i.peek 0).kind = k) p Q)
    (h₂ : Spec K n (fun i => P i ∧ (i.peek 0).kind ≠ k) q Q) :
    Spec K n P (current >>= fun k' => if k' = k then p else q) Q :=
  branch (c := fun i => (i.peek 0).kind = k)
    (fun C i i' hC hi => by simp only [(hi.peek_zero hC).kind]) h₁ h₂

end Spec

end Basic

/-! ## Tokens -/

section Steps

variable {K : Kind → Prop} {n : Nat} {P : Input → Prop}

theorem eventsAll_token (v : List Token) (kind : Kind) (span : Span) :
    (Output.trivia v ++ Output.token kind span).events =
      Skeleton.eventsAll (Skeleton.trivia v ++ [.leaf kind span]) := by
  rw [Skeleton.eventsAll_append, Skeleton.eventsAll_trivia]
  rfl

namespace Spec

/-- Taking the next token as one of a kind that is found ahead. -/
theorem bumpAs_of {g : Input → Kind} (hg : Steady g) {R : Input → Prop}
    (hP : ∀ i, i.Proper → P i →
      (i.peek 0).kind ≠ .eof ∧ K (i.peek 0).kind ∧ (i.peek 0).ShownAs (g i))
    (hR : ∀ i j : Input, P i → n < j.taken → (∀ m, j.peek m = i.peek (m + 1)) → R j) :
    Spec K n P (fun i => Rule.bumpAs (g i) i) fun _ => R := by
  intro i hi hn hPi
  obtain ⟨hne, hK, hs⟩ := hP i hi hPi
  obtain ⟨v, t, us, hnext, _⟩ := hi.exists_next hne
  rw [hnext.peek_zero] at hne hK hs
  have hrun := bumpAs_next hnext hne (g i)
  refine ⟨⟨v ++ [t], Skeleton.trivia v ++ [.leaf (g i) t.span], ?_, ?_⟩, ?_,
    fun C i' hC hi' hl => ?_⟩
  · rw [hrun]
    simpa [Output.token, Output.trivia] using Trace.token hnext hK hs
  · rw [hrun]
    exact eventsAll_token v (g i) t.span
  · rw [hrun]
    refine hR i _ hPi (Nat.lt_succ_of_le hn) fun m => ?_
    rw [hnext.peek_succ]
    rfl
  · rw [hrun] at hl ⊢
    obtain ⟨v', t', us', hnext', hv, ht, hafter, _⟩ := hi'.next hnext hl
    rw [hg C i i' hC hi', bumpAs_next hnext' (ht.kind ▸ hne) (g i)]
    exact ⟨rfl, (Parallel.Outputs.trivia hv).append (.token (g i) ht), hafter⟩

theorem bumpAs {kind : Kind} {R : Input → Prop}
    (hP : ∀ i, i.Proper → P i →
      (i.peek 0).kind ≠ .eof ∧ K (i.peek 0).kind ∧ (i.peek 0).ShownAs kind)
    (hR : ∀ i j : Input, P i → n < j.taken → (∀ m, j.peek m = i.peek (m + 1)) → R j) :
    Spec K n P (Rule.bumpAs kind) fun _ => R :=
  bumpAs_of (g := fun _ => kind) (fun _ _ _ _ _ => rfl) hP hR

theorem bump {R : Input → Prop}
    (hP : ∀ i, i.Proper → P i → (i.peek 0).kind ≠ .eof ∧ K (i.peek 0).kind)
    (hR : ∀ i j : Input, P i → n < j.taken → (∀ m, j.peek m = i.peek (m + 1)) → R j) :
    Spec K n P Rule.bump fun _ => R :=
  bumpAs_of steady_kind (fun i hi hPi => ⟨(hP i hi hPi).1, (hP i hi hPi).2, .same⟩) hR

/-- Taking the next token, whatever comes after. -/
theorem bump_begun (hP : ∀ i, i.Proper → P i → (i.peek 0).kind ≠ .eof ∧ K (i.peek 0).kind) :
    Spec K n P Rule.bump fun _ j => n < j.taken :=
  bump hP fun _ _ _ h _ => h

/-! ## Nodes and loops -/

/-- A node around a rule that takes something. -/
theorem nodeOf {body : Rule Kind} {Q : Input → Prop} (hP : Stable P)
    (hne : ∀ i, P i → (i.peek 0).kind ≠ .eof)
    (hb : ∀ m, n ≤ m → Spec K m P body fun k j =>
      k.isNode = true ∧ K k ∧ m < j.taken ∧ Q j) :
    Spec K n P (Rule.nodeOf body) fun _ j => n < j.taken ∧ Q j := by
  intro i hi hn hPi
  obtain ⟨v, t, us, hnext, _⟩ := hi.exists_next (hne i hPi)
  have hrun := nodeOf_run hnext.tokens hnext.trivia hnext.head? body
  have hpeek : ∀ m, (i.advance (t :: us)).peek m = i.peek m := hnext.peek_advance
  have hi₀ : (i.advance (t :: us)).Proper := hi.of_suffix rfl ⟨v, hnext.tokens.symm⟩
  have hbody := hb i.taken hn _ hi₀ (Nat.le_refl _) (hP i _ hpeek rfl hPi)
  obtain ⟨hk, hK, hlt, hQ⟩ := hbody.post
  obtain ⟨xs, f, ht, he⟩ := hbody.trace
  have hxs : xs ≠ [] := ht.taken_lt_iff.1 hlt
  refine ⟨⟨v ++ xs, Skeleton.trivia v ++ [.node (body (i.advance (t :: us))).value f], ?_, ?_⟩,
    ?_, fun C i' hC hi' hl => ?_⟩
  · rw [hrun]
    exact .node hnext.tokens hnext.trivia hnext.head? hk hK (ht.mono (fun _ h => h) hn) hxs
  · rw [hrun, Skeleton.eventsAll_append, Skeleton.eventsAll_trivia, Skeleton.eventsAll_singleton,
      Skeleton.events, ← he]
    rfl
  · rw [hrun]
    exact ⟨Nat.lt_of_le_of_lt hn hlt, hQ⟩
  · rw [hrun] at hl ⊢
    -- the body took the next token, so the inputs part only behind it
    have hlen : C.tail.length ≤ us.length := by
      have := hbody.length_lt hlt
      exact Nat.le_of_lt_succ (Nat.lt_of_le_of_lt hl this)
    obtain ⟨v', t', us', hnext', hv, _, _, hadvance⟩ := hi'.next hnext hlen
    have hsame := hbody.alike C _ hC hadvance hl
    rw [nodeOf_run hnext'.tokens hnext'.trivia hnext'.head? body, hsame.value]
    exact ⟨rfl, (Parallel.Outputs.trivia hv).append (hsame.output.enclosed _), hsame.rest⟩

theorem node {kind : Kind} {body : Rule Unit} {Q : Input → Prop} (hP : Stable P)
    (hne : ∀ i, P i → (i.peek 0).kind ≠ .eof) (hk : kind.isNode = true) (hK : K kind)
    (hb : ∀ m, n ≤ m → Spec K m P body fun _ j => m < j.taken ∧ Q j) :
    Spec K n P (Rule.node kind body) fun _ j => n < j.taken ∧ Q j :=
  nodeOf hP hne fun m hm => (hb m hm).bind fun _ => pure fun _ h => ⟨hk, hK, h⟩

/-- A loop whose steps keep an invariant and take something as long as they answer `true`. -/
theorem repeatWhile {step : Rule Bool} {I Q : Input → Prop}
    (hstep : ∀ m, n ≤ m → Spec K m I step fun b j =>
      I j ∧ (b = true → m < j.taken) ∧ (b = false → Q j)) :
    Spec K n I (Rule.repeatWhile step) fun _ j => I j ∧ Q j := by
  intro i
  induction hlen : i.tokens.length using Nat.strongRecOn generalizing i with
  | ind len ih =>
    intro hi hn hI
    have hs := hstep i.taken hn i hi (Nat.le_refl _) hI
    obtain ⟨hI', htrue, hfalse⟩ := hs.post
    cases hv : (step i).value with
    | false =>
      have hrun : ∀ j, (step j).value = false → Rule.repeatWhile step j =
          ⟨(), (step j).output, (step j).rest⟩ := fun j hj => repeatWhile_neg (by simp [hj])
      have hs' := hs.mono (fun _ h => h) hn
      refine ⟨?_, ?_, fun C i' hC hi' hl => ?_⟩
      · rw [hrun i hv]
        exact hs'.trace
      · rw [hrun i hv]
        exact ⟨hI', hfalse hv⟩
      · rw [hrun i hv] at hl ⊢
        have hsame := hs.alike C i' hC hi' hl
        rw [hrun i' (hsame.value.trans hv)]
        exact ⟨rfl, hsame.output, hsame.rest⟩
    | true =>
      have hlt := hs.length_lt (htrue hv)
      have hmore := ih _ (hlen ▸ hlt) _ rfl (hs.proper hi) (Nat.le_trans hn hs.taken_le) hI'
      obtain ⟨xs, f, ht, he⟩ := (hs.mono (fun _ h => h) hn).trace
      obtain ⟨ys, g, ht', he'⟩ := hmore.trace
      have hrun := repeatWhile_pos hv hlt
      refine ⟨⟨xs ++ ys, f ++ g, ?_, ?_⟩, ?_, fun C i' hC hi' hl => ?_⟩
      · rw [hrun]
        exact ht.append ht'
      · rw [hrun, Skeleton.eventsAll_append, ← he, ← he']
        rfl
      · rw [hrun]
        exact hmore.post
      · rw [hrun] at hl ⊢
        have hsame := hs.alike C i' hC hi' (Nat.le_trans hl hmore.length_le)
        have hmore' := hmore.alike C _ hC hsame.rest hl
        have hlt' := hi'.length_lt hsame.rest hlt
        rw [repeatWhile_pos (hsame.value.trans hv) hlt']
        exact ⟨rfl, hsame.output.append hmore'.output, hmore'.rest⟩

/-- Taking tokens as long as they belong to a set. -/
theorem bumpWhile {s : KindSet} (hs : ∀ k, s.contains k = true → k ≠ .eof ∧ K k) :
    Spec K n P (Rule.bumpWhile s) fun _ j => (P j ∨ n < j.taken) ∧ ¬ At s j := by
  have hloop : Spec K n (fun j => P j ∨ n < j.taken) (Rule.bumpWhile s)
      fun _ j => (P j ∨ n < j.taken) ∧ ¬ At s j := by
    refine repeatWhile fun m hm => ifAt ?_ ?_
    · refine bind (bump_begun fun i _ h => hs _ h.2) fun _ => pure fun j hj => ?_
      exact ⟨.inr (Nat.lt_of_le_of_lt hm hj), fun _ => hj, Bool.noConfusion⟩
    · exact pure fun j hj => ⟨hj.1, Bool.noConfusion, fun _ => hj.2⟩
  exact hloop.pre fun _ h => .inl h

/-! ## Diagnostics and recovery -/

theorem missing (e : Expected) (hP : ∀ i, P i → n < i.taken) :
    Spec K n P (Rule.missing e) fun _ => P := fun i hi hn hPi => by
  refine ⟨⟨[], [], .missing e (hP i hPi), rfl⟩, hPi, fun C i' hC hi' hl => ⟨rfl, ?_, hi'⟩⟩
  refine .report ⟨?_, .inl rfl⟩
  rw [hi'.takenEnd]
  rfl

/-- A report about the next token in front of a rule that takes it. -/
theorem flag {p : Rule Unit} {Q : Input → Prop} (problem : Token → Problem)
    (resyncs : Input → List Resync) (hc : ∀ t, problem t ≠ .unclosedComment)
    (hsame : ∀ t t' : Token, t'.kind = t.kind → t'.text = t.text → problem t' = problem t)
    (hne : ∀ i, P i → (i.peek 0).kind ≠ .eof)
    (hp : ∀ m, n ≤ m → Spec K m P p fun _ j => m < j.taken ∧ Q j) :
    Spec K n P (fun i => ⟨(), ⟨[], [⟨problem (i.peek 0), (i.peek 0).span⟩], resyncs i⟩ ++
      (p i).output, (p i).rest⟩) fun _ j => n < j.taken ∧ Q j := by
  intro i hi hn hPi
  obtain ⟨v, t, us, hnext, _⟩ := hi.exists_next (hne i hPi)
  have hrule := hp i.taken hn i hi (Nat.le_refl _) hPi
  obtain ⟨hlt, hQ⟩ := hrule.post
  obtain ⟨xs, f, ht, he⟩ := hrule.trace
  have hxs : xs ≠ [] := ht.taken_lt_iff.1 hlt
  refine ⟨⟨xs, f, ?_, he⟩, ⟨Nat.lt_of_le_of_lt hn hlt, hQ⟩, fun C i' hC hi' hl => ?_⟩
  · rw [hnext.peek_zero]
    change Trace K n i xs f ([] ++ ⟨problem t, t.span⟩ :: (p i).output.diagnostics) (p i).rest
    exact .report hnext hxs (hc t) (ht.mono (fun _ h => h) hn)
  · have hlen := Nat.le_trans hl (ht.rest_length_le hnext hxs)
    obtain ⟨v', t', us', hnext', _, htok, _⟩ := hi'.next hnext hlen
    have hsame' := hrule.alike C i' hC hi' hl
    refine ⟨rfl, ?_, hsame'.rest⟩
    refine Parallel.Outputs.append ⟨rfl, .cons ⟨?_, ?_⟩ .nil⟩ hsame'.output
    · rw [hnext.peek_zero, hnext'.peek_zero, htok.span]
    · rw [hnext.peek_zero, hnext'.peek_zero]
      exact htok.text.imp (hsame t t' htok.kind) id

theorem found_eq {t t' : Token} (hk : t'.kind = t.kind) (ht : t'.text = t.text) :
    found t' = found t := by
  rw [found, found, hk, ht]

/-- The next token alone in an error node. -/
theorem skipToken (e : Expected) (hP : Stable P) (hE : K .errorNode)
    (hne : ∀ i, P i → (i.peek 0).kind ≠ .eof) (hK : ∀ i, i.Proper → P i → K (i.peek 0).kind) :
    Spec K n P (Rule.skipToken e) fun _ j => n < j.taken := by
  have h : Spec K n P (Rule.skipToken e) fun _ j => n < j.taken ∧ True := by
    refine flag (p := Rule.node .errorNode Rule.bump) (fun t => .unexpected e (found t))
      (fun _ => []) (fun _ => Problem.noConfusion) ?_ hne ?_
    · exact fun t t' hk ht => by rw [found_eq hk ht]
    · intro m _
      refine node hP hne rfl hE fun l _ => post (bump_begun fun i hi h => ?_) ?_
      · exact ⟨hne i h, hK i hi h⟩
      · exact fun _ _ h => ⟨h, trivial⟩
  exact h.post fun _ _ h => h.1

end Spec

theorem ne_eof_of_not_at {i : Input} (h : ¬ At Grammar.statementEnd i) :
    (i.peek 0).kind ≠ .eof := by
  intro hk
  rw [At, hk] at h
  exact h rfl

theorem lexed_of_not_at {i : Input} (hi : i.Proper) (h : ¬ At Grammar.statementEnd i) :
    (i.peek 0).kind.isLexed = true := by
  obtain ⟨v, t, us, hnext, hk⟩ := hi.exists_next (ne_eof_of_not_at h)
  rw [← hk]
  exact hi.lexed t hnext.mem

/-- The loop that skips what is left of a statement. -/
def toStatementEnd : Rule Unit :=
  repeatWhile do
    if ← atStatementEnd then return false
    else
      bump
      return true

theorem Spec.toStatementEnd (hK : ∀ k : Kind, k.isLexed = true →
    Grammar.statementEnd.contains k = false → K k) :
    Spec K n (fun i => ¬ At Grammar.statementEnd i) Rule.toStatementEnd
      fun _ j => n < j.taken ∧ At Grammar.statementEnd j := by
  have hloop : Spec K n (fun j => ¬ At Grammar.statementEnd j ∨ n < j.taken) Rule.toStatementEnd
      fun _ j => (¬ At Grammar.statementEnd j ∨ n < j.taken) ∧ At Grammar.statementEnd j := by
    refine repeatWhile fun m hm => ?_
    refine ifAt (pure fun j h => ⟨h.1, Bool.noConfusion, fun _ => h.2⟩) ?_
    refine bind (bump_begun fun i hi h => ?_) fun _ => pure fun j h => ?_
    · exact ⟨ne_eof_of_not_at h.2, hK _ (lexed_of_not_at hi h.2) (Bool.eq_false_iff.2 h.2)⟩
    · exact ⟨.inr (Nat.lt_of_le_of_lt hm h), fun _ => h, Bool.noConfusion⟩
  -- the loop goes on until the statement ends, so it takes the token it started at
  refine hloop.weaken (fun i h => .inl h) fun _ j h => ⟨?_, h.2⟩
  exact h.1.resolve_left (not_not_intro h.2)

/-- What is left of a statement is skipped. If nothing is left, something was taken before. -/
theorem Spec.recover (hK : Skips K) (e : Expected)
    (hP : ∀ i, P i → ¬ At Grammar.statementEnd i ∨ n < i.taken) :
    Spec K n P (Rule.recover e) fun _ j => n < j.taken ∧ At Grammar.statementEnd j := by
  refine ifAt ?_ (pre ?_ fun i h => h.2)
  · refine post (missing e fun i h => (hP i h.1).resolve_left (not_not_intro h.2)) ?_
    exact fun _ i h => ⟨(hP i h.1).resolve_left (not_not_intro h.2), h.2⟩
  · refine flag (P := fun i => ¬ At Grammar.statementEnd i)
      (p := Rule.node .errorNode Rule.toStatementEnd) (fun t => .unexpected e (found t))
      (fun i => [⟨(i.peek 0).span, e⟩]) (fun _ => Problem.noConfusion) ?_
      (fun i h => ne_eof_of_not_at h) ?_
    · exact fun t t' hk ht => by rw [found_eq hk ht]
    · intro m _
      refine node ?_ (fun i h => ne_eof_of_not_at h) rfl hK.node fun l _ => toStatementEnd hK.tokens
      exact fun i j hp _ h => by rwa [At, hp 0]

end Steps

end Rule

end LpFormat
