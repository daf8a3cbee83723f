import LpFormat.Proofs.Parsing.Script

/-!
# Rules and trivia

Rules see significant tokens only. Without its trivia an input is read in the same way, and the
output is the same but for the leaves of the trivia and the reports about comments.

* `Input.bare`, `Output.bare`, `Outcome.bare`: without trivia;
* `Rule.Blind`: a rule that does the same without trivia, with a lemma for each way to compose a rule;
  `Rule.Script.blind`: all rules that are composed so;
* **`Rule.document_bare`**: a document without trivia.
-/

namespace LpFormat

/-- Whether an event is something else than a leaf for trivia. -/
def Event.isSignificant : Event → Bool
  | token kind _ => !kind.isTrivia
  | _ => true

/-- Whether a diagnostic is about something else than a comment. -/
def Diagnostic.isSyntactic (d : Diagnostic) : Bool := d.problem != .unclosedComment

theorem Diagnostic.isSyntactic_eq (d : Diagnostic) :
    d.isSyntactic = (d.problem.kind != .lexError) := by
  obtain ⟨problem, span⟩ := d
  cases problem <;> rfl

/-- An input without its trivia. -/
def Input.bare (i : Input) : Input := { i with tokens := i.tokens.filter fun t => !t.kind.isTrivia }

/-- An output without what trivia left. -/
def Output.bare (o : Output) : Output :=
  ⟨o.events.filter Event.isSignificant, o.diagnostics.filter Diagnostic.isSyntactic, o.resyncs⟩

/-- An outcome without trivia. -/
def Outcome.bare {α : Type} (r : Outcome α) : Outcome α := ⟨r.value, r.output.bare, r.rest.bare⟩

namespace Input

theorem filter_trivia {v : List Token} (hv : AllTrivia v) :
    (v.filter fun t => !t.kind.isTrivia) = [] := by
  rw [List.filter_eq_nil_iff]
  intro t ht
  simp [hv t ht]

theorem filter_significant (t : Token) (ts : List Token) (ht : t.kind.isTrivia = false) :
    ((t :: ts).filter fun t => !t.kind.isTrivia) = t :: ts.filter fun t => !t.kind.isTrivia :=
  List.filter_cons_of_pos (by simp [ht])

theorem nth_filter (eof : Token) (n : Nat) (ts : List Token) :
    nth eof n (ts.filter fun t => !t.kind.isTrivia) = nth eof n ts := by
  induction ts generalizing n with
  | nil => rfl
  | cons t ts ih =>
    by_cases ht : t.kind.isTrivia = true
    · rw [List.filter_cons_of_neg (by simp [ht]), nth_cons_trivia ht, ih]
    · have ht' : t.kind.isTrivia = false := by simpa using ht
      rw [filter_significant t ts ht']
      cases n with
      | zero => rw [nth_zero_cons ht', nth_zero_cons ht']
      | succ n => rw [nth_succ_cons ht', nth_succ_cons ht', ih]

@[simp]
theorem peek_bare (i : Input) (n : Nat) : i.bare.peek n = i.peek n := nth_filter i.eof n i.tokens

theorem newlineRun_bare (i : Input) : newlineRun i.bare.tokens = newlineRun i.tokens := by
  change newlineRun (i.tokens.filter fun t => !t.kind.isTrivia) = _
  induction i.tokens with
  | nil => rfl
  | cons t ts ih =>
    by_cases ht : t.kind.isTrivia = true
    · rw [List.filter_cons_of_neg (by simp [ht]), newlineRun, if_pos ht, ih]
    · rw [filter_significant t ts (by simpa using ht), newlineRun, newlineRun, if_neg ht, if_neg ht,
        ih]

theorem Proper.bare {i : Input} (h : i.Proper) : i.bare.Proper :=
  ⟨h.eof, fun t ht => h.lexed t (List.mem_of_mem_filter ht),
    fun t ht => h.solid t (List.mem_of_mem_filter ht)⟩

theorem Next.bare {i : Input} {v us : List Token} {t : Token} (h : i.Next v t us) :
    i.bare.Next [] t (us.filter fun t => !t.kind.isTrivia) := by
  refine ⟨?_, allTrivia_nil, h.significant⟩
  change (i.tokens.filter fun t => !t.kind.isTrivia) = _
  rw [h.tokens, List.filter_append, filter_trivia h.trivia, filter_significant t us h.significant]

theorem Done.bare {i : Input} (h : i.Done) : i.bare.tokens = [] := filter_trivia h

end Input

namespace Output

theorem bare_append (o p : Output) : (o ++ p).bare = o.bare ++ p.bare := by
  ext1 <;> simp [bare]

theorem bare_trivia {v : List Token} (hv : AllTrivia v) : (trivia v).bare = {} := by
  have hevents : (v.map fun t => Event.token t.kind t.span).filter Event.isSignificant = [] := by
    rw [List.filter_eq_nil_iff]
    intro e he
    obtain ⟨t, ht, rfl⟩ := List.mem_map.1 he
    simp [Event.isSignificant, hv t ht]
  have hcomments : (v.filterMap Rule.commentDiagnostic?).filter Diagnostic.isSyntactic = [] := by
    rw [List.filter_eq_nil_iff]
    intro d hd
    obtain ⟨t, _, ht⟩ := List.mem_filterMap.1 hd
    rw [Rule.commentDiagnostic?] at ht
    split_ifs at ht
    cases ht
    simp [Diagnostic.isSyntactic]
  ext1
  · exact hevents
  · exact hcomments
  · rfl

theorem bare_enclosed (kind : Kind) (o : Output) : (enclosed kind o).bare = enclosed kind o.bare := by
  ext1
  · simp only [bare, enclosed, List.filter_cons, List.filter_append, List.filter_nil]
    rfl
  · rfl
  · rfl

theorem bare_token {kind : Kind} (hk : kind.isTrivia = false) (span : Span) :
    (token kind span).bare = token kind span := by
  ext1 <;> simp [bare, token, Event.isSignificant, hk]

end Output

namespace Rule

variable {α β : Type}

/-- A rule that does the same where the trivia are left out. -/
def Blind (p : Rule α) : Prop := ∀ i : Input, i.Proper → p i.bare = (p i).bare ∧ (p i).rest.Proper

namespace Blind

variable {p q : Rule α}

theorem pure (a : α) : Blind (Pure.pure a : Rule α) := fun _ hi => ⟨rfl, hi⟩

theorem bind {f : α → Rule β} (hp : Blind p) (hf : ∀ a, Blind (f a)) : Blind (p >>= f) := by
  intro i hi
  obtain ⟨hrun, hrest⟩ := hp i hi
  obtain ⟨hrun', hrest'⟩ := hf (p i).value (p i).rest hrest
  refine ⟨?_, hrest'⟩
  rw [bind_run, bind_run, hrun]
  change (⟨(f (p i).value (p i).rest.bare).value, (p i).output.bare ++
    (f (p i).value (p i).rest.bare).output, (f (p i).value (p i).rest.bare).rest⟩ : Outcome β) = _
  rw [hrun', Outcome.bare, Outcome.bare, Output.bare_append]

theorem ite {c : Prop} [Decidable c] (hp : Blind p) (hq : Blind q) :
    Blind (if c then p else q) := by
  split_ifs
  · exact hp
  · exact hq

/-- A look ahead. -/
theorem look {g : Input → α} (hg : ∀ i, g i.bare = g i) :
    Blind (fun i => ⟨g i, {}, i⟩ : Rule α) := by
  intro i hi
  refine ⟨?_, hi⟩
  change (⟨g i.bare, {}, i.bare⟩ : Outcome α) = _
  rw [hg]
  rfl

theorem peek (n : Nat) : Blind (Rule.peek n) := look fun i => i.peek_bare n

/-- A report about something else than a comment. -/
theorem output {g : Input → Output} (hg : ∀ i, g i.bare = (g i).bare) :
    Blind (fun i => ⟨(), g i, i⟩ : Rule Unit) := by
  intro i hi
  refine ⟨?_, hi⟩
  change (⟨(), g i.bare, i.bare⟩ : Outcome Unit) = _
  rw [hg]
  rfl

theorem report {problem : Problem} (h : problem ≠ .unclosedComment) (span : Span) :
    Blind (Rule.report problem span) :=
  output (g := fun _ => { diagnostics := [⟨problem, span⟩] }) fun _ => by
    ext1
    · rfl
    · have hd : Diagnostic.isSyntactic ⟨problem, span⟩ = true := by simpa [Diagnostic.isSyntactic] using h
      change [_] = List.filter Diagnostic.isSyntactic [_]
      rw [List.filter_cons_of_pos hd, List.filter_nil]
    · rfl

theorem missing (e : Expected) : Blind (Rule.missing e) :=
  output (g := fun i => { diagnostics := [⟨.missing e, .empty i.takenEnd⟩] }) fun _ => rfl

/-! ## Tokens, nodes and loops -/

/-- Taking a token as one of a kind that is found ahead. -/
theorem bumpAs_of {g : Input → Kind} (hg : ∀ i, g i.bare = g i)
    (hk : ∀ i : Input, i.Proper → (i.peek 0).kind ≠ .eof → (g i).isTrivia = false) :
    Blind fun i => Rule.bumpAs (g i) i := by
  intro i hi
  rcases i.next_or_done with ⟨v, t, us, hn⟩ | hd
  · have hne := hi.ne_eof hn.mem
    have hkind := hk i hi (by rwa [hn.peek_zero])
    have hrun := bumpAs_next hn hne (g i)
    have hrun' := bumpAs_next hn.bare hne (g i)
    refine ⟨?_, ?_⟩
    · change Rule.bumpAs (g i.bare) i.bare = (Rule.bumpAs (g i) i).bare
      rw [hg, hrun, hrun', Outcome.bare, Output.bare_append, Output.bare_trivia hn.trivia,
        Output.bare_token hkind]
      rfl
    · change (Rule.bumpAs (g i) i).rest.Proper
      rw [hrun]
      exact hi.of_suffix rfl ⟨v ++ [t], by simp [hn.tokens, Input.after]⟩
  · have hdone : i.bare.Done := by
      rw [Input.Done, hd.bare]
      exact allTrivia_nil
    refine ⟨?_, ?_⟩
    · change Rule.bumpAs (g i.bare) i.bare = (Rule.bumpAs (g i) i).bare
      rw [bumpAs_done hd hi.eof, bumpAs_done hdone hi.eof]
      rfl
    · change (Rule.bumpAs (g i) i).rest.Proper
      rw [bumpAs_done hd hi.eof]
      exact hi

theorem bumpAs {kind : Kind} (hk : kind.isTrivia = false) : Blind (Rule.bumpAs kind) :=
  bumpAs_of (g := fun _ => kind) (fun _ => rfl) fun _ _ _ => hk

theorem bump : Blind Rule.bump := by
  refine bumpAs_of (g := fun i => (i.peek 0).kind) (fun i => by rw [i.peek_bare]) fun i hi hne => ?_
  obtain ⟨v, t, us, hn, _⟩ := hi.exists_next hne
  rw [hn.peek_zero]
  exact hn.significant

theorem takeTrivia : Blind Rule.takeTrivia := by
  intro i hi
  obtain ⟨v, us, htokens, hv, hus⟩ := i.exists_trivia
  have hfilter : (i.advance us).bare = i.bare := by
    rw [Input.bare, Input.bare, Input.advance, htokens, List.filter_append, Input.filter_trivia hv]
    rfl
  have hbare : ∀ t ∈ i.bare.tokens.head?, t.kind.isTrivia = false := by
    intro t ht
    simpa using List.of_mem_filter (List.mem_of_mem_head? ht)
  rw [takeTrivia_run htokens hv hus, takeTrivia_run (List.nil_append _).symm allTrivia_nil hbare]
  refine ⟨?_, hi.of_suffix rfl ⟨v, htokens.symm⟩⟩
  rw [Outcome.bare, Output.bare_trivia hv, hfilter]
  rfl

theorem enclose {body : Rule Kind} (hb : Blind body) : Blind (Rule.enclose body) := by
  intro i hi
  obtain ⟨hrun, hrest⟩ := hb i hi
  refine ⟨?_, hrest⟩
  change (⟨(), .enclosed (body i.bare).value (body i.bare).output, (body i.bare).rest⟩ :
    Outcome Unit) = ⟨(), (Output.enclosed (body i).value (body i).output).bare, (body i).rest.bare⟩
  rw [hrun, Output.bare_enclosed]
  rfl

theorem repeatWhile {step : Rule Bool} (hs : Blind step) (hp : Progress step) :
    Blind (Rule.repeatWhile step) := by
  intro i
  induction hlen : i.tokens.length using Nat.strongRecOn generalizing i with
  | ind len ih =>
    intro hi
    obtain ⟨hrun, hrest⟩ := hs i hi
    cases hv : (step i).value with
    | false =>
      have hv' : (step i.bare).value = false := by rw [hrun]; exact hv
      have hstop : ∀ j, (step j).value = false → Rule.repeatWhile step j =
          ⟨(), (step j).output, (step j).rest⟩ := fun j hj => repeatWhile_neg (by simp [hj])
      rw [hstop i hv, hstop i.bare hv', hrun]
      exact ⟨rfl, hrest⟩
    | true =>
      have hv' : (step i.bare).value = true := by rw [hrun]; exact hv
      have hlt := hp i hi hv
      have hlt' := hp i.bare hi.bare hv'
      obtain ⟨hmore, hmore'⟩ := ih _ (hlen ▸ hlt) (step i).rest rfl hrest
      rw [repeatWhile_pos hv hlt, repeatWhile_pos hv' hlt', hrun]
      change (⟨(), (step i).output.bare ++ (Rule.repeatWhile step (step i).rest.bare).output,
        (Rule.repeatWhile step (step i).rest.bare).rest⟩ : Outcome Unit) = _ ∧ _
      rw [hmore, Outcome.bare, Outcome.bare, Output.bare_append]
      exact ⟨rfl, hmore'⟩

end Blind

/-- Whatever is composed of blind rules is blind. -/
theorem Script.blind {p : Rule α} (h : Script p) : Blind p := by
  induction h with
  | pure a => exact .pure a
  | bind _ _ ihp ihf => exact ihp.bind ihf
  | ite c _ _ ihp ihq => exact ihp.ite ihq
  | peek n => exact .peek n
  | newlines => exact .look fun i => i.newlineRun_bare
  | taken => exact .look fun _ => rfl
  | report problem h span => exact .report h span
  | missing e => exact .missing e
  | resync r => exact .output (g := fun _ => { resyncs := [r] }) fun _ => rfl
  | takeTrivia => exact .takeTrivia
  | bump => exact .bump
  | bumpAs kind h => exact .bumpAs h
  | enclose _ ih => exact ih.enclose
  | repeatWhile h _ ih => exact ih.repeatWhile h

/-- **A document without its trivia is read as it is with them.** -/
theorem document_bare {i : Input} (hi : i.Proper) :
    (document i.bare).output = (document i).output.bare :=
  congrArg Outcome.output (documentScript.blind i hi).1

end Rule

end LpFormat
