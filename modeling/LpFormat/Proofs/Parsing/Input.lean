import LpFormat.Parsing.Document
import LpFormat.Proofs.Text.Scan
import LpFormat.Proofs.Token.Stops

/-!
# Inputs and the basic steps of a rule

The tokens ahead are trivia and then either a significant token or the end. What the basic steps of
a rule do is said once for the two cases; no later proof opens them.

* `Input.Next`, `Input.Done`, `Input.next_or_done`: the two cases;
* `Input.Proper`: the end of input shows only past the last token;
* `Output.trivia`, `Output.token`, `Output.enclosed`: the outputs of the basic steps;
* `Rule.bumpAs_next`, `Rule.bumpAs_done`, `Rule.nodeOf_run`: the steps themselves;
* `Rule.Loops`: some rounds of a loop, `Rule.repeatWhile_cases`.
-/

namespace LpFormat

/-- All tokens of a list are trivia. -/
def AllTrivia (v : List Token) : Prop := ∀ t ∈ v, t.kind.isTrivia = true

theorem allTrivia_nil : AllTrivia [] := List.forall_mem_nil _

namespace Input

theorem nth_cons_trivia {t : Token} (ht : t.kind.isTrivia = true) (eof : Token) (n : Nat)
    (us : List Token) : nth eof n (t :: us) = nth eof n us := by
  rw [nth.eq_def]
  exact if_pos ht

theorem nth_append {v : List Token} (hv : AllTrivia v) (eof : Token) (n : Nat) (us : List Token) :
    nth eof n (v ++ us) = nth eof n us := by
  induction v with
  | nil => rfl
  | cons t v ih =>
    rw [List.cons_append, nth_cons_trivia (hv t List.mem_cons_self)]
    exact ih fun u hu => hv u (List.mem_cons_of_mem _ hu)

theorem nth_zero_cons {t : Token} (ht : t.kind.isTrivia = false) (eof : Token) (us : List Token) :
    nth eof 0 (t :: us) = t := by
  rw [nth, if_neg (by simp [ht])]

theorem nth_succ_cons {t : Token} (ht : t.kind.isTrivia = false) (eof : Token) (n : Nat)
    (us : List Token) : nth eof (n + 1) (t :: us) = nth eof n us := by
  rw [nth, if_neg (by simp [ht])]

/-- A significant token comes next, after some trivia. -/
structure Next (i : Input) (v : List Token) (t : Token) (us : List Token) : Prop where
  tokens : i.tokens = v ++ t :: us
  trivia : AllTrivia v
  significant : t.kind.isTrivia = false

/-- Only trivia are ahead. -/
def Done (i : Input) : Prop := AllTrivia i.tokens

theorem next_or_done (i : Input) : (∃ v t us, i.Next v t us) ∨ i.Done := by
  obtain ⟨tokens, eof, taken, takenEnd, lastKind⟩ := i
  induction tokens with
  | nil => exact .inr allTrivia_nil
  | cons t ts ih =>
    by_cases ht : t.kind.isTrivia = true
    · rcases ih with ⟨v, u, us, h⟩ | h
      · exact .inl ⟨t :: v, u, us, congrArg _ h.tokens, List.forall_mem_cons.2 ⟨ht, h.trivia⟩,
          h.significant⟩
      · exact .inr (List.forall_mem_cons.2 ⟨ht, h⟩)
    · exact .inl ⟨[], t, ts, rfl, allTrivia_nil, by simpa using ht⟩

section Next

variable {i : Input} {v us : List Token} {t : Token} (h : i.Next v t us)

include h

theorem Next.peek_zero : i.peek 0 = t := by
  rw [peek, h.tokens, nth_append h.trivia, nth_zero_cons h.significant]

theorem Next.peek_succ (n : Nat) : i.peek (n + 1) = nth i.eof n us := by
  rw [peek, h.tokens, nth_append h.trivia, nth_succ_cons h.significant]

theorem Next.peek_advance (n : Nat) : ({ i with tokens := t :: us } : Input).peek n = i.peek n := by
  rw [peek, peek, h.tokens, nth_append h.trivia]

theorem Next.head? : ∀ u ∈ (t :: us).head?, u.kind.isTrivia = false := by
  rintro u ⟨⟩
  exact h.significant

theorem Next.mem : t ∈ i.tokens := by
  rw [h.tokens]
  exact List.mem_append_right _ List.mem_cons_self

end Next

/-- The trivia ahead, and the next significant token if there is one. -/
theorem exists_trivia (i : Input) : ∃ v us, i.tokens = v ++ us ∧ AllTrivia v ∧
    ∀ t ∈ us.head?, t.kind.isTrivia = false := by
  rcases i.next_or_done with ⟨v, t, us, hn⟩ | hd
  · exact ⟨v, t :: us, hn.tokens, hn.trivia, hn.head?⟩
  · exact ⟨i.tokens, [], (List.append_nil _).symm, hd, nofun⟩

theorem Done.peek {i : Input} (h : i.Done) (n : Nat) : i.peek n = i.eof := by
  rw [Input.peek, ← List.append_nil i.tokens, nth_append h, nth]

/-- The end of input shows only past the last token, and all other tokens are as the reader gives
them: of the reader's kinds and not empty. -/
structure Proper (i : Input) : Prop where
  eof : i.eof.kind = .eof
  lexed : ∀ t ∈ i.tokens, t.kind.isLexed = true
  solid : ∀ t ∈ i.tokens, t.span.start < t.span.stop

theorem Proper.of_suffix {i j : Input} (h : i.Proper) (he : j.eof = i.eof)
    (hs : j.tokens <:+ i.tokens) : j.Proper :=
  ⟨he ▸ h.eof, fun t ht => h.lexed t (hs.mem ht), fun t ht => h.solid t (hs.mem ht)⟩

theorem Proper.ne_eof {i : Input} (h : i.Proper) {t : Token} (ht : t ∈ i.tokens) :
    t.kind ≠ .eof := by
  intro hk
  have := h.lexed t ht
  rw [hk] at this
  cases this

/-- Something other than the end of input is next. -/
theorem Proper.exists_next {i : Input} (h : i.Proper) (hk : (i.peek 0).kind ≠ .eof) :
    ∃ v t us, i.Next v t us ∧ t.kind = (i.peek 0).kind := by
  rcases i.next_or_done with ⟨v, t, us, hn⟩ | hd
  · exact ⟨v, t, us, hn, by rw [hn.peek_zero]⟩
  · rw [hd.peek, h.eof] at hk
    exact absurd rfl hk

theorem Proper.done {i : Input} (h : i.Proper) (hk : (i.peek 0).kind = .eof) : i.Done := by
  rcases i.next_or_done with ⟨v, t, us, hn⟩ | hd
  · rw [hn.peek_zero] at hk
    exact absurd hk (h.ne_eof hn.mem)
  · exact hd

/-- The input with its leading trivia taken. -/
def advance (i : Input) (us : List Token) : Input := { i with tokens := us }

/-- The input after a significant token was taken. -/
def after (i : Input) (t : Token) (us : List Token) : Input :=
  ⟨us, i.eof, i.taken + 1, t.span.stop, some t.kind⟩

end Input

/-! ## Outputs -/

namespace Output

/-- The output for trivia that go into the open node. -/
def trivia (v : List Token) : Output :=
  { events := v.map fun t => .token t.kind t.span,
    diagnostics := v.filterMap Rule.commentDiagnostic? }

/-- The output for a token of a given kind. -/
def token (kind : Kind) (span : Span) : Output := { events := [.token kind span] }

/-- The output for a diagnostic. -/
def report (d : Diagnostic) : Output := { diagnostics := [d] }

/-- The output for a place where a statement was given up. -/
def resync (r : Resync) : Output := { resyncs := [r] }

/-- The output of what is inside a node, with the node around it. -/
def enclosed (kind : Kind) (o : Output) : Output :=
  { o with events := .start kind :: (o.events ++ [.finish]) }

@[ext]
theorem ext {o p : Output} (h₁ : o.events = p.events) (h₂ : o.diagnostics = p.diagnostics)
    (h₃ : o.resyncs = p.resyncs) : o = p := by
  cases o
  cases p
  simp_all

@[simp]
theorem events_append (o p : Output) : (o ++ p).events = o.events ++ p.events := rfl

@[simp]
theorem diagnostics_append (o p : Output) :
    (o ++ p).diagnostics = o.diagnostics ++ p.diagnostics := rfl

@[simp]
theorem resyncs_append (o p : Output) : (o ++ p).resyncs = o.resyncs ++ p.resyncs := rfl

@[simp]
theorem append_empty (o : Output) : o ++ ({} : Output) = o := by
  ext1 <;> simp

@[simp]
theorem empty_append (o : Output) : ({} : Output) ++ o = o := rfl

theorem append_assoc (o p q : Output) : o ++ p ++ q = o ++ (p ++ q) := by
  ext1 <;> simp

theorem trivia_nil : trivia [] = {} := rfl

end Output

/-! ## The basic steps -/

namespace Rule

variable {i : Input}

theorem takeTrivia_run {v us : List Token} (h : i.tokens = v ++ us) (hv : AllTrivia v)
    (hus : ∀ t ∈ us.head?, t.kind.isTrivia = false) :
    takeTrivia i = ⟨(), .trivia v, i.advance us⟩ := by
  simp only [takeTrivia, h, takeWhile_append_stop hv hus, dropWhile_append_stop hv hus]
  rfl

theorem bumpAs_done (h : i.Done) (he : i.eof.kind = .eof) (kind : Kind) :
    bumpAs kind i = ⟨(), {}, i⟩ := by
  have hk : (i.peek 0).kind = .eof := by rw [h.peek, he]
  change (if (i.peek 0).kind = .eof then (pure () : Rule Unit)
    else takeTrivia >>= fun _ => takeToken kind) i = _
  rw [if_pos hk]
  rfl

theorem bumpAs_next {v us : List Token} {t : Token} (h : i.Next v t us) (ht : t.kind ≠ .eof)
    (kind : Kind) :
    bumpAs kind i = ⟨(), .trivia v ++ .token kind t.span, i.after t us⟩ := by
  have hk : (i.peek 0).kind ≠ .eof := by rwa [h.peek_zero]
  change (if (i.peek 0).kind = .eof then (pure () : Rule Unit)
    else takeTrivia >>= fun _ => takeToken kind) i = _
  rw [if_neg hk]
  change (⟨(), (takeTrivia i).output ++ (takeToken kind (takeTrivia i).rest).output, _⟩ :
    Outcome Unit) = _
  rw [takeTrivia_run h.tokens h.trivia h.head?]
  rfl

theorem bump_eq : bump i = bumpAs (i.peek 0).kind i := rfl

theorem nodeOf_run {v us : List Token} (h : i.tokens = v ++ us) (hv : AllTrivia v)
    (hus : ∀ t ∈ us.head?, t.kind.isTrivia = false) (body : Rule Kind) :
    nodeOf body i = ⟨(), .trivia v ++ .enclosed (body (i.advance us)).value
      (body (i.advance us)).output, (body (i.advance us)).rest⟩ := by
  change (⟨(), (takeTrivia i).output ++ (enclose body (takeTrivia i).rest).output, _⟩ :
    Outcome Unit) = _
  rw [takeTrivia_run h hv hus]
  rfl

theorem node_run {v us : List Token} (h : i.tokens = v ++ us) (hv : AllTrivia v)
    (hus : ∀ t ∈ us.head?, t.kind.isTrivia = false) (kind : Kind) (body : Rule Unit) :
    node kind body i = ⟨(), .trivia v ++ .enclosed kind (body (i.advance us)).output,
      (body (i.advance us)).rest⟩ := by
  rw [node, nodeOf_run h hv hus]
  change (⟨(), _ ++ Output.enclosed kind ((body (i.advance us)).output ++ {}), _⟩ :
    Outcome Unit) = _
  rw [Output.append_empty]
  rfl

/-! ## Rounds of a loop -/

/-- Some rounds of a loop, in which every step answers `true` and takes tokens. -/
inductive Loops (step : Rule Bool) : Input → Output → Input → Prop where
  | nil (i : Input) : Loops step i {} i
  | cons {i j : Input} {o : Output} (hv : (step i).value = true)
      (hlt : (step i).rest.tokens.length < i.tokens.length) (h : Loops step (step i).rest o j) :
      Loops step i ((step i).output ++ o) j

theorem repeatWhile_pos {step : Rule Bool} (hv : (step i).value = true)
    (hlt : (step i).rest.tokens.length < i.tokens.length) :
    repeatWhile step i = ⟨(), (step i).output ++ (repeatWhile step (step i).rest).output,
      (repeatWhile step (step i).rest).rest⟩ := by
  rw [repeatWhile, dif_pos ⟨hv, hlt⟩]

theorem repeatWhile_neg {step : Rule Bool}
    (h : ¬ ((step i).value = true ∧ (step i).rest.tokens.length < i.tokens.length)) :
    repeatWhile step i = ⟨(), (step i).output, (step i).rest⟩ := by
  rw [repeatWhile, dif_neg h]

/-- A loop is some rounds and one last step. -/
theorem repeatWhile_cases (step : Rule Bool) (i : Input) : ∃ o j, Loops step i o j ∧
    ¬ ((step j).value = true ∧ (step j).rest.tokens.length < j.tokens.length) ∧
    repeatWhile step i = ⟨(), o ++ (step j).output, (step j).rest⟩ := by
  by_cases h : (step i).value = true ∧ (step i).rest.tokens.length < i.tokens.length
  · obtain ⟨o, j, hl, hj, he⟩ := repeatWhile_cases step (step i).rest
    refine ⟨_, j, .cons h.1 h.2 hl, hj, ?_⟩
    rw [repeatWhile_pos h.1 h.2, he, Output.append_assoc]
  · exact ⟨{}, i, .nil i, h, repeatWhile_neg h⟩
termination_by i.tokens.length
decreasing_by exact h.2

/-- A loop can be taken up after some rounds. -/
theorem Loops.repeatWhile_eq {step : Rule Bool} {j : Input} {o : Output} (h : Loops step i o j) :
    repeatWhile step i =
      ⟨(), o ++ (repeatWhile step j).output, (repeatWhile step j).rest⟩ := by
  induction h with
  | nil i => rfl
  | cons hv hlt _ ih => rw [repeatWhile_pos hv hlt, ih, Output.append_assoc]

theorem Loops.snoc {step : Rule Bool} {j : Input} {o : Output} (h : Loops step i o j)
    (hv : (step j).value = true) (hlt : (step j).rest.tokens.length < j.tokens.length) :
    Loops step i (o ++ (step j).output) (step j).rest := by
  induction h with
  | nil i =>
    have := Loops.cons hv hlt (.nil _)
    rwa [Output.append_empty] at this
  | cons hv' hlt' _ ih =>
    rw [Output.append_assoc]
    exact .cons hv' hlt' (ih hv hlt)

end Rule

end LpFormat
