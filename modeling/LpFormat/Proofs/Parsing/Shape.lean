import LpFormat.Proofs.Parsing.Bare
import LpFormat.Proofs.Parsing.Schema

/-!
# Shapes of what rules leave

A rule leaves a forest that obeys the schema, and diagnostics that account for the faults in it. If
there are none, the tokens taken are a word of the grammar.

* `Skeleton.kinds`, `Skeleton.Schematic`: root kinds without trivia, and trees that obey the schema;
* `Skeleton.errorStartsAll`, `Skeleton.looseNumbersAll`: the faults that a forest shows;
* `Reading`: what was taken and left, with all faults accounted for;
* `Rule.Shows`, `Rule.Runs`: a forest with root kinds from one language, and tokens from another if
  nothing is wrong; with a lemma for each way to build a rule;
* `Rule.GivesUp`: a rule that may skip the rest of its statement.
-/

namespace LpFormat

open Computability

namespace Skeleton

/-- The kinds of the roots of a forest, trivia apart. -/
def kinds (f : List Skeleton) : List Kind := (f.map kind).filter fun k => !k.isTrivia

theorem kinds_append (f g : List Skeleton) : kinds (f ++ g) = kinds f ++ kinds g := by
  simp [kinds]

theorem trivia_append (v w : List Token) : trivia (v ++ w) = trivia v ++ trivia w :=
  List.map_append

theorem kinds_trivia {v : List Token} (hv : AllTrivia v) : kinds (trivia v) = [] := by
  rw [kinds, List.filter_eq_nil_iff]
  intro k hk
  obtain ⟨s, hs, rfl⟩ := List.mem_map.1 hk
  obtain ⟨t, ht, rfl⟩ := List.mem_map.1 hs
  simp [Skeleton.kind, hv t ht]

theorem kinds_singleton {s : Skeleton} (h : s.kind.isTrivia = false) : kinds [s] = [s.kind] := by
  simp [kinds, h]

/-- All nodes have the children that the schema asks for. -/
inductive Schematic : Skeleton → Prop where
  | leaf (kind : Kind) (span : Span) : Schematic (.leaf kind span)
  | node {kind : Kind} {f : List Skeleton} (hk : kinds f ∈ Schema.children kind)
      (hf : ∀ s ∈ f, Schematic s) : Schematic (.node kind f)

mutual

/-- Where the error nodes of a skeleton begin. -/
def errorStarts : Skeleton → List Span
  | leaf _ _ => []
  | node kind children =>
    (if kind = .errorNode then (leavesOf (eventsAll children)).head?.toList.map Prod.snd else []) ++
      errorStartsAll children

/-- Where the error nodes of a forest begin. -/
def errorStartsAll : List Skeleton → List Span
  | [] => []
  | s :: ss => s.errorStarts ++ errorStartsAll ss

end

mutual

/-- The malformed numbers that are in no error node. -/
def looseNumbers : Skeleton → List Span
  | leaf kind span => if kind = .invalidNumber then [span] else []
  | node kind children => if kind = .errorNode then [] else looseNumbersAll children

/-- The malformed numbers of a forest that are in no error node. -/
def looseNumbersAll : List Skeleton → List Span
  | [] => []
  | s :: ss => s.looseNumbers ++ looseNumbersAll ss

end

theorem errorStartsAll_eq_flatMap (f : List Skeleton) :
    errorStartsAll f = f.flatMap errorStarts := by
  induction f with
  | nil => rfl
  | cons s f ih => rw [errorStartsAll, ih, List.flatMap_cons]

theorem looseNumbersAll_eq_flatMap (f : List Skeleton) :
    looseNumbersAll f = f.flatMap looseNumbers := by
  induction f with
  | nil => rfl
  | cons s f ih => rw [looseNumbersAll, ih, List.flatMap_cons]

theorem errorStartsAll_append (f g : List Skeleton) :
    errorStartsAll (f ++ g) = errorStartsAll f ++ errorStartsAll g := by
  simp only [errorStartsAll_eq_flatMap, List.flatMap_append]

theorem looseNumbersAll_append (f g : List Skeleton) :
    looseNumbersAll (f ++ g) = looseNumbersAll f ++ looseNumbersAll g := by
  simp only [looseNumbersAll_eq_flatMap, List.flatMap_append]

theorem errorStartsAll_leaves {f : List Skeleton} (h : ∀ s ∈ f, ∃ k sp, s = .leaf k sp) :
    errorStartsAll f = [] := by
  rw [errorStartsAll_eq_flatMap, List.flatMap_eq_nil_iff]
  intro s hs
  obtain ⟨k, sp, rfl⟩ := h s hs
  rfl

theorem leaves_trivia (v : List Token) : ∀ s ∈ trivia v, ∃ k sp, s = .leaf k sp := by
  intro s hs
  obtain ⟨t, _, rfl⟩ := List.mem_map.1 hs
  exact ⟨_, _, rfl⟩

theorem looseNumbersAll_trivia {v : List Token} (hv : AllTrivia v) :
    looseNumbersAll (trivia v) = [] := by
  rw [looseNumbersAll_eq_flatMap, List.flatMap_eq_nil_iff]
  intro s hs
  obtain ⟨t, ht, rfl⟩ := List.mem_map.1 hs
  refine if_neg fun hk => ?_
  have := hv t ht
  rw [hk] at this
  cases this

theorem schematic_leaves {f : List Skeleton} (h : ∀ s ∈ f, ∃ k sp, s = .leaf k sp) :
    ∀ s ∈ f, s.Schematic := by
  intro s hs
  obtain ⟨k, sp, rfl⟩ := h s hs
  exact .leaf k sp

end Skeleton

/-- The spans of the diagnostics of a kind. -/
def spansOf (k : ProblemKind) (ds : List Diagnostic) : List Span :=
  (ds.filter fun d => d.problem.kind == k).map Diagnostic.span

theorem spansOf_append (k : ProblemKind) (ds es : List Diagnostic) :
    spansOf k (ds ++ es) = spansOf k ds ++ spansOf k es := by
  simp [spansOf]

theorem problem_comment {v : List Token} :
    ∀ d ∈ v.filterMap Rule.commentDiagnostic?, d.problem = .unclosedComment := by
  intro d hd
  obtain ⟨t, _, ht⟩ := List.mem_filterMap.1 hd
  rw [Rule.commentDiagnostic?] at ht
  split_ifs at ht
  cases ht
  rfl

theorem spansOf_comments {k : ProblemKind} (hk : k ≠ .lexError) {ds : List Diagnostic}
    (h : ∀ d ∈ ds, d.problem = .unclosedComment) : spansOf k ds = [] := by
  rw [spansOf, List.map_eq_nil_iff, List.filter_eq_nil_iff]
  intro d hd
  rw [h d hd]
  simpa [Problem.kind] using hk.symm

/-- The tokens of a list that are not trivia. -/
def significant (ts : List Token) : List Token := ts.filter fun t => !t.kind.isTrivia

theorem significant_append (ts us : List Token) :
    significant (ts ++ us) = significant ts ++ significant us := List.filter_append ts us

/-- Tokens were taken from one place to another, and what was left for them accounts for all faults:
each error node is reported where it begins, each malformed number outside of error nodes is reported,
and missing pieces have no extent. -/
structure Reading (i : Input) (o : Output) (j : Input) (f : List Skeleton) (xs : List Token) :
    Prop where
  tokens : i.tokens = xs ++ j.tokens
  eof : j.eof = i.eof
  events : o.events = Skeleton.eventsAll f
  schematic : ∀ s ∈ f, s.Schematic
  errors : spansOf .unexpectedToken o.diagnostics = Skeleton.errorStartsAll f
  numbers : spansOf .invalidNumber o.diagnostics = Skeleton.looseNumbersAll f
  missing : ∀ d ∈ o.diagnostics, d.problem.kind = .missingToken → d.span.start = d.span.stop

namespace Reading

variable {i j k : Input} {o p : Output} {f g : List Skeleton} {xs ys : List Token}

theorem proper (h : Reading i o j f xs) (hi : i.Proper) : j.Proper :=
  hi.of_suffix h.eof ⟨xs, h.tokens.symm⟩

theorem append (h : Reading i o j f xs) (h' : Reading j p k g ys) :
    Reading i (o ++ p) k (f ++ g) (xs ++ ys) := by
  refine ⟨?_, h'.eof.trans h.eof, ?_, List.forall_mem_append.2 ⟨h.schematic, h'.schematic⟩, ?_, ?_,
    List.forall_mem_append.2 ⟨h.missing, h'.missing⟩⟩
  · rw [h.tokens, h'.tokens, List.append_assoc]
  · rw [Output.events_append, h.events, h'.events, Skeleton.eventsAll_append]
  · rw [Output.diagnostics_append, spansOf_append, h.errors, h'.errors,
      Skeleton.errorStartsAll_append]
  · rw [Output.diagnostics_append, spansOf_append, h.numbers, h'.numbers,
      Skeleton.looseNumbersAll_append]

theorem nil (i : Input) : Reading i {} i [] [] :=
  ⟨rfl, rfl, rfl, List.forall_mem_nil _, rfl, rfl, List.forall_mem_nil _⟩

/-- Trivia. -/
theorem trivia {v us : List Token} (h : i.tokens = v ++ us) (hv : AllTrivia v) :
    Reading i (.trivia v) (i.advance us) (Skeleton.trivia v) v := by
  refine ⟨h, rfl, ?_, Skeleton.schematic_leaves (Skeleton.leaves_trivia v), ?_, ?_, ?_⟩
  · rw [Skeleton.eventsAll_trivia]
    rfl
  · rw [Skeleton.errorStartsAll_leaves (Skeleton.leaves_trivia v)]
    exact spansOf_comments ProblemKind.noConfusion problem_comment
  · rw [Skeleton.looseNumbersAll_trivia hv]
    exact spansOf_comments ProblemKind.noConfusion problem_comment
  · intro d hd hk
    rw [problem_comment d hd] at hk
    cases hk

/-- A token that is no malformed number. -/
theorem token {t : Token} {us : List Token} {kind : Kind} (h : i.tokens = t :: us)
    (hk : kind ≠ .invalidNumber) :
    Reading i (.token kind t.span) (i.after t us) [.leaf kind t.span] [t] := by
  refine ⟨h, rfl, rfl, ?_, rfl, ?_, List.forall_mem_nil _⟩
  · rw [List.forall_mem_singleton]
    exact .leaf _ _
  · change [] = (if kind = .invalidNumber then [t.span] else []) ++ []
    rw [if_neg hk]
    rfl

/-- A malformed number that is reported. -/
theorem badNumber {v us : List Token} {t : Token} (hn : i.Next v t us) :
    Reading i (.report ⟨.invalidNumber t.text, t.span⟩ ++
        (.trivia v ++ .token .invalidNumber t.span)) (i.after t us)
      (Skeleton.trivia v ++ [.leaf .invalidNumber t.span]) (v ++ [t]) := by
  have hlead := trivia hn.tokens hn.trivia
  refine ⟨?_, rfl, Rule.eventsAll_token v _ _, ?_, ?_, ?_, ?_⟩
  · rw [hn.tokens, List.append_assoc]
    rfl
  · refine List.forall_mem_append.2 ⟨hlead.schematic, ?_⟩
    rw [List.forall_mem_singleton]
    exact .leaf _ _
  · rw [Skeleton.errorStartsAll_append, ← hlead.errors, Output.diagnostics_append,
      Output.diagnostics_append, spansOf_append, spansOf_append]
    rfl
  · rw [Skeleton.looseNumbersAll_append, ← hlead.numbers, Output.diagnostics_append,
      Output.diagnostics_append, spansOf_append, spansOf_append, hlead.numbers,
      Skeleton.looseNumbersAll_trivia hn.trivia]
    rfl
  · refine List.forall_mem_append.2 ⟨?_, List.forall_mem_append.2 ⟨hlead.missing, ?_⟩⟩
    · change ∀ d ∈ [_], _
      rw [List.forall_mem_singleton]
      exact fun h => ProblemKind.noConfusion h
    · exact List.forall_mem_nil _

/-- A node that is no error. -/
theorem node {kind : Kind} (h : Reading i o j f xs) (hk : kind ≠ .errorNode)
    (hf : Skeleton.kinds f ∈ Schema.children kind) :
    Reading i (.enclosed kind o) j [.node kind f] xs := by
  refine ⟨h.tokens, h.eof, ?_, ?_, ?_, ?_, h.missing⟩
  · rw [Skeleton.eventsAll_singleton, Skeleton.events, ← h.events]
    rfl
  · rw [List.forall_mem_singleton]
    exact .node hf h.schematic
  · rw [Skeleton.errorStartsAll, Skeleton.errorStartsAll, Skeleton.errorStarts, if_neg hk,
      List.nil_append, List.append_nil, ← h.errors]
    rfl
  · rw [Skeleton.looseNumbersAll, Skeleton.looseNumbersAll, Skeleton.looseNumbers, if_neg hk,
      List.append_nil, ← h.numbers]
    rfl

end Reading

/-! ## Error nodes -/

/-- Tokens were taken just as they are. -/
structure Takes (i : Input) (o : Output) (j : Input) (xs : List Token) : Prop where
  tokens : i.tokens = xs ++ j.tokens
  eof : j.eof = i.eof
  events : o.events = Skeleton.eventsAll (Skeleton.trivia xs)
  comments : ∀ d ∈ o.diagnostics, d.problem = .unclosedComment

namespace Takes

variable {i j k : Input} {o p : Output} {xs ys : List Token}

theorem append (h : Takes i o j xs) (h' : Takes j p k ys) : Takes i (o ++ p) k (xs ++ ys) := by
  refine ⟨?_, h'.eof.trans h.eof, ?_, List.forall_mem_append.2 ⟨h.comments, h'.comments⟩⟩
  · rw [h.tokens, h'.tokens, List.append_assoc]
  · rw [Output.events_append, h.events, h'.events, ← Skeleton.eventsAll_append]
    exact congrArg _ (Skeleton.trivia_append xs ys).symm

theorem bump (hi : i.Proper) (hne : (i.peek 0).kind ≠ .eof) :
    ∃ v t us, i.Next v t us ∧ Takes i (Rule.bump i).output (Rule.bump i).rest (v ++ [t]) := by
  obtain ⟨v, t, us, hn, hk⟩ := hi.exists_next hne
  refine ⟨v, t, us, hn, ?_⟩
  rw [Rule.bump_eq, Rule.bumpAs_next hn (hk ▸ hne), ← hk]
  refine ⟨?_, rfl, ?_, ?_⟩
  · rw [hn.tokens, List.append_assoc]
    rfl
  · rw [Rule.eventsAll_token]
    exact congrArg _ (Skeleton.trivia_append v [t]).symm
  · exact List.forall_mem_append.2 ⟨problem_comment, List.forall_mem_nil _⟩

theorem toStatementEnd (i : Input) (hi : i.Proper) :
    ∃ xs, Takes i (Rule.toStatementEnd i).output (Rule.toStatementEnd i).rest xs ∧
      Rule.At Grammar.statementEnd (Rule.toStatementEnd i).rest := by
  rw [Rule.toStatementEnd_eq]
  induction hlen : i.tokens.length using Nat.strongRecOn generalizing i with
  | ind len ih =>
    by_cases hat : Rule.At Grammar.statementEnd i
    · have hstep : Rule.skipStep i = ⟨false, {}, i⟩ := by
        change (if Grammar.statementEnd.contains (i.peek 0).kind = true then pure false
          else Rule.bump >>= fun _ => pure true : Rule Bool) i = _
        have : Grammar.statementEnd.contains (i.peek 0).kind = true := hat
        rw [if_pos this]
        rfl
      rw [Rule.repeatWhile_neg (by simp [hstep]), hstep]
      exact ⟨[], ⟨rfl, rfl, rfl, List.forall_mem_nil _⟩, hat⟩
    · have hstep : Rule.skipStep i = ⟨true, (Rule.bump i).output, (Rule.bump i).rest⟩ := by
        change (if Grammar.statementEnd.contains (i.peek 0).kind = true then pure false
          else Rule.bump >>= fun _ => pure true : Rule Bool) i = _
        have : ¬ Grammar.statementEnd.contains (i.peek 0).kind = true := hat
        rw [if_neg this, Rule.bind_pure_run]
      have hlt := Rule.progress_skipStep i hi (by rw [hstep])
      obtain ⟨v, t, us, hn, htakes⟩ := Takes.bump hi (Rule.ne_eof_of_not_at hat)
      rw [Rule.repeatWhile_pos (by rw [hstep]) hlt]
      rw [hstep] at hlt ⊢
      have hrest : (Rule.bump i).rest.Proper :=
        hi.of_suffix htakes.eof ⟨_, htakes.tokens.symm⟩
      obtain ⟨ys, hys, hend⟩ := ih _ (hlen ▸ hlt) _ hrest rfl
      exact ⟨_, htakes.append hys, hend⟩

/-- Tokens in an error node that is reported where it begins. -/
theorem reading {v us : List Token} {t : Token} (h : Takes (i.advance (t :: us)) o j xs)
    (hn : i.Next v t us) (hi : i.Proper) (hxs : xs ≠ []) (e : Expected) (found : Found)
    (resyncs : List Resync) :
    Reading i (⟨[], [⟨.unexpected e found, t.span⟩], resyncs⟩ ++
        (.trivia v ++ .enclosed .errorNode o)) j
      (Skeleton.trivia v ++ [.node .errorNode (Skeleton.trivia xs)]) (v ++ xs) := by
  have hlead := Reading.trivia hn.tokens hn.trivia
  obtain ⟨x, ys, rfl⟩ := List.exists_cons_of_ne_nil hxs
  obtain ⟨rfl, hys⟩ := List.cons.inj h.tokens
  have hleaves := Skeleton.leaves_trivia (t :: ys)
  have hkinds : Skeleton.kinds (Skeleton.trivia (t :: ys)) ∈ Schema.children .errorNode := by
    intro k hk
    obtain ⟨s, hs, rfl⟩ := List.mem_map.1 (List.mem_of_mem_filter hk)
    obtain ⟨u, hu, rfl⟩ := List.mem_map.1 hs
    have hmem : u ∈ i.tokens := by
      rw [hn.tokens, hys]
      exact List.mem_append_right _ (List.mem_append_left _ hu)
    exact (Token.ShownAs.same.lexedAs (hi.lexed u hmem)).2
  refine ⟨?_, h.eof, ?_, ?_, ?_, ?_, ?_⟩
  · rw [List.append_assoc, ← h.tokens]
    exact hn.tokens
  · rw [Skeleton.eventsAll_append, Skeleton.eventsAll_singleton, Skeleton.events, ← h.events,
      ← hlead.events]
    rfl
  · refine List.forall_mem_append.2 ⟨hlead.schematic, ?_⟩
    rw [List.forall_mem_singleton]
    exact .node hkinds (Skeleton.schematic_leaves hleaves)
  · have hfirst : Skeleton.errorStartsAll [.node .errorNode (Skeleton.trivia (t :: ys))] =
        [t.span] := by
      rw [Skeleton.errorStartsAll, Skeleton.errorStartsAll, Skeleton.errorStarts,
        Skeleton.errorStartsAll_leaves hleaves, Skeleton.leavesOf_trivia]
      rfl
    have hnone := spansOf_comments (k := .unexpectedToken) ProblemKind.noConfusion h.comments
    rw [Skeleton.errorStartsAll_append, hfirst, ← hlead.errors, Output.diagnostics_append,
      Output.diagnostics_append, spansOf_append, spansOf_append, hlead.errors,
      Skeleton.errorStartsAll_leaves (Skeleton.leaves_trivia v)]
    exact congrArg ([t.span] ++ ·) hnone
  · have hnone := spansOf_comments (k := .invalidNumber) ProblemKind.noConfusion h.comments
    rw [Skeleton.looseNumbersAll_append, Skeleton.looseNumbersAll_trivia hn.trivia,
      Output.diagnostics_append, Output.diagnostics_append, spansOf_append, spansOf_append,
      hlead.numbers, Skeleton.looseNumbersAll_trivia hn.trivia]
    exact hnone
  · refine List.forall_mem_append.2 ⟨?_, List.forall_mem_append.2 ⟨hlead.missing, ?_⟩⟩
    · rw [List.forall_mem_singleton]
      exact fun h => ProblemKind.noConfusion h
    · intro d hd hk
      rw [h.comments d hd] at hk
      cases hk

end Takes

/-! ## Rules -/

namespace Rule

/-- A rule took some tokens and left something for them: root kinds of one language, and, if nothing
is wrong, significant tokens of another. -/
def Shows (A : Language Kind) (G : Language Token) (i : Input) (o : Output) (j : Input) : Prop :=
  ∃ f xs, Reading i o j f xs ∧ Skeleton.kinds f ∈ A ∧
    (o.diagnostics.filter Diagnostic.isSyntactic = [] → significant xs ∈ G) ∧
    spansOf .unterminatedSection o.diagnostics = []

section Shows

variable {A B : Language Kind} {G H : Language Token} {i j k : Input} {o p : Output}

theorem Shows.mono (h : Shows A G i o j) (hA : A ≤ B) (hG : G ≤ H) : Shows B H i o j := by
  obtain ⟨f, xs, hr, hk, hx, hs⟩ := h
  exact ⟨f, xs, hr, hA hk, fun hd => hG (hx hd), hs⟩

theorem Shows.append (h : Shows A G i o j) (h' : Shows B H j p k) :
    Shows (A * B) (G * H) i (o ++ p) k := by
  obtain ⟨f, xs, hr, hk, hx, hs⟩ := h
  obtain ⟨g, ys, hr', hk', hx', hs'⟩ := h'
  refine ⟨f ++ g, xs ++ ys, hr.append hr', ?_, fun hd => ?_, ?_⟩
  · rw [Skeleton.kinds_append]
    exact Language.append_mem_mul hk hk'
  · rw [Output.diagnostics_append, List.filter_append, List.append_eq_nil_iff] at hd
    rw [significant_append]
    exact Language.append_mem_mul (hx hd.1) (hx' hd.2)
  · rw [Output.diagnostics_append, spansOf_append, hs, hs']
    rfl

theorem Shows.nil (i : Input) : Shows 1 1 i {} i :=
  ⟨[], [], .nil i, rfl, fun _ => rfl, rfl⟩

theorem Shows.proper (h : Shows A G i o j) (hi : i.Proper) : j.Proper := by
  obtain ⟨f, xs, hr, _⟩ := h
  exact hr.proper hi

end Shows

/-- Wherever a condition holds, a rule leaves root kinds of a language, which may depend on its
answer, and takes tokens of a language if nothing is wrong. -/
def Runs {α : Type} (P : Input → Prop) (p : Rule α) (A : α → Language Kind) (G : Language Token)
    (Q : α → Input → Prop) : Prop :=
  ∀ i : Input, i.Proper → P i →
    Shows (A (p i).value) G i (p i).output (p i).rest ∧ Q (p i).value (p i).rest

/-- A rule goes through, or it skips the rest of its statement. -/
def GivesUp (P : Input → Prop) (p : Rule Unit) (A B : Language Kind) (G : Language Token) : Prop :=
  ∀ i : Input, i.Proper → P i → Shows A G i (p i).output (p i).rest ∨
    Shows B 0 i (p i).output (p i).rest ∧ At Grammar.statementEnd (p i).rest

namespace Runs

variable {α β : Type} {P P' : Input → Prop} {p q : Rule α} {A A' : α → Language Kind}
  {G G' H : Language Token} {Q Q' : α → Input → Prop} {f : α → Rule β} {B : β → Language Kind}
  {R : β → Input → Prop} {C : Language Kind}

theorem weaken (h : Runs P p A G Q) (hP : ∀ i, P' i → P i) (hA : ∀ a, A a ≤ A' a) (hG : G ≤ G')
    (hQ : ∀ a i, Q a i → Q' a i) : Runs P' p A' G' Q' := by
  intro i hi hPi
  obtain ⟨hs, hq⟩ := h i hi (hP i hPi)
  exact ⟨hs.mono (hA _) hG, hQ _ _ hq⟩

theorem pre (h : Runs P p A G Q) (hP : ∀ i, P' i → P i) : Runs P' p A G Q :=
  h.weaken hP (fun _ => le_rfl) le_rfl fun _ _ h => h

theorem post (h : Runs P p A G Q) (hQ : ∀ a i, Q a i → Q' a i) : Runs P p A G Q' :=
  h.weaken (fun _ h => h) (fun _ => le_rfl) le_rfl hQ

theorem le (h : Runs P p A G Q) (hA : ∀ a, A a ≤ A' a) (hG : G ≤ G') : Runs P p A' G' Q :=
  h.weaken (fun _ h => h) hA hG fun _ _ h => h

theorem pure {a : α} (hQ : ∀ i, P i → Q a i) :
    Runs P (Pure.pure a : Rule α) (fun _ => 1) 1 Q :=
  fun i _ hPi => ⟨Shows.nil i, hQ i hPi⟩

/-- Nothing is to be shown where a condition never holds. -/
theorem vacuous (h : ∀ i, ¬ P i) : Runs P p A G Q := fun i _ hPi => absurd hPi (h i)

theorem bind (hp : Runs P p (fun _ => C) G Q) (hf : ∀ a, Runs (Q a) (f a) B H R) :
    Runs P (p >>= f) (fun b => C * B b) (G * H) R := by
  intro i hi hPi
  obtain ⟨hs, hq⟩ := hp i hi hPi
  obtain ⟨hs', hr⟩ := hf _ _ (hs.proper hi) hq
  exact ⟨hs.append hs', hr⟩

/-- A look ahead. -/
theorem test {g : Input → α} :
    Runs P (fun i => ⟨g i, {}, i⟩ : Rule α) (fun _ => 1) 1 fun a i => P i ∧ a = g i :=
  fun i _ hPi => ⟨Shows.nil i, hPi, rfl⟩

/-- A look ahead and what follows. -/
theorem look {g : Input → α} (hf : ∀ a, Runs (fun i => P i ∧ a = g i) (f a) B H R) :
    Runs P ((fun i => ⟨g i, {}, i⟩ : Rule α) >>= f) B H R :=
  (test.bind hf).le (fun b => (one_mul (B b)).le) (one_mul H).le

theorem ite {c : Prop} [Decidable c] (h₁ : c → Runs P p A G Q) (h₂ : ¬ c → Runs P q A G Q) :
    Runs P (if c then p else q) A G Q := by
  by_cases hc : c
  · rw [if_pos hc]
    exact h₁ hc
  · rw [if_neg hc]
    exact h₂ hc

/-- A choice that depends on what is ahead. -/
theorem branch {c : Input → Prop} [∀ i, Decidable (c i)]
    (h₁ : Runs (fun i => P i ∧ c i) p A G Q) (h₂ : Runs (fun i => P i ∧ ¬ c i) q A G Q) :
    Runs P (fun i => (if c i then p else q) i) A G Q := by
  intro i hi hPi
  by_cases hc : c i
  · simp only [if_pos hc]
    exact h₁ i hi ⟨hPi, hc⟩
  · simp only [if_neg hc]
    exact h₂ i hi ⟨hPi, hc⟩

/-- A choice by the next token. -/
theorem ifAt {s : KindSet} (h₁ : Runs (fun i => P i ∧ At s i) p A G Q)
    (h₂ : Runs (fun i => P i ∧ ¬ At s i) q A G Q) :
    Runs P (Rule.atSet s >>= fun b => if b = true then p else q) A G Q :=
  branch (c := fun i => s.contains (i.peek 0).kind = true) h₁ h₂

/-- A choice by the kind of the next token. -/
theorem ifKind {k : Kind} (h₁ : Runs (fun i => P i ∧ (i.peek 0).kind = k) p A G Q)
    (h₂ : Runs (fun i => P i ∧ (i.peek 0).kind ≠ k) q A G Q) :
    Runs P (current >>= fun k' => if k' = k then p else q) A G Q :=
  branch (c := fun i => (i.peek 0).kind = k) h₁ h₂

end Runs

section Steps

variable {P : Input → Prop} {Q : Input → Prop} {A : Language Kind} {G : Language Token}

theorem significant_next {i : Input} {v us : List Token} {t : Token} (h : i.Next v t us) :
    significant (v ++ [t]) = [t] := by
  rw [significant, List.filter_append, Input.filter_trivia h.trivia,
    Input.filter_significant t [] h.significant]
  rfl

namespace Runs

/-- Taking the next token as one of a kind that is found ahead. -/
theorem bumpAs_of {g : Input → Kind} (hP : ∀ i, i.Proper → P i → (i.peek 0).kind ≠ .eof ∧
      (g i).isTrivia = false ∧ g i ≠ .invalidNumber ∧ [g i] ∈ A ∧ [i.peek 0] ∈ G)
    (hQ : ∀ i j : Input, P i → (∀ m, j.peek m = i.peek (m + 1)) → Q j) :
    Runs P (fun i => Rule.bumpAs (g i) i) (fun _ => A) G fun _ => Q := by
  intro i hi hPi
  obtain ⟨hne, htr, hbad, hA, hG⟩ := hP i hi hPi
  obtain ⟨v, t, us, hn, hk⟩ := hi.exists_next hne
  have hrun := bumpAs_next hn (hk ▸ hne) (g i)
  have hlead := Reading.trivia hn.tokens hn.trivia
  have htoken := @Reading.token (i.advance (t :: us)) t us (g i) rfl hbad
  rw [hn.peek_zero] at hG
  change Shows A G i (Rule.bumpAs (g i) i).output (Rule.bumpAs (g i) i).rest ∧
    Q (Rule.bumpAs (g i) i).rest
  rw [hrun]
  refine ⟨⟨_, _, hlead.append htoken, ?_, fun _ => ?_, ?_⟩, hQ i _ hPi fun m => ?_⟩
  · rw [Skeleton.kinds_append, Skeleton.kinds_trivia hn.trivia,
      Skeleton.kinds_singleton (s := .leaf (g i) t.span) htr]
    exact hA
  · rw [significant_next hn]
    exact hG
  · rw [Output.diagnostics_append, spansOf_append]
    exact (List.append_nil _).trans (spansOf_comments ProblemKind.noConfusion problem_comment)
  · rw [hn.peek_succ]
    rfl

theorem bumpAs {kind : Kind} (hk : kind.isTrivia = false) (hbad : kind ≠ .invalidNumber)
    (hP : ∀ i, i.Proper → P i → (i.peek 0).kind ≠ .eof ∧ [kind] ∈ A ∧ [i.peek 0] ∈ G)
    (hQ : ∀ i j : Input, P i → (∀ m, j.peek m = i.peek (m + 1)) → Q j) :
    Runs P (Rule.bumpAs kind) (fun _ => A) G fun _ => Q :=
  bumpAs_of (g := fun _ => kind)
    (fun i hi h => ⟨(hP i hi h).1, hk, hbad, (hP i hi h).2⟩) hQ

theorem bump (hP : ∀ i, P i → (i.peek 0).kind ≠ .eof ∧ (i.peek 0).kind ≠ .invalidNumber ∧
      [(i.peek 0).kind] ∈ A ∧ [i.peek 0] ∈ G)
    (hQ : ∀ i j : Input, P i → (∀ m, j.peek m = i.peek (m + 1)) → Q j) :
    Runs P Rule.bump (fun _ => A) G fun _ => Q := by
  refine bumpAs_of (g := fun i => (i.peek 0).kind) (fun i hi h => ?_) hQ
  obtain ⟨hne, hrest⟩ := hP i h
  obtain ⟨v, t, us, hn, hk⟩ := hi.exists_next hne
  exact ⟨hne, hk ▸ hn.significant, hrest⟩

theorem missing (e : Expected) : Runs P (Rule.missing e) (fun _ => 1) 0 fun _ => P := by
  intro i _ hPi
  refine ⟨⟨[], [], ⟨rfl, rfl, rfl, List.forall_mem_nil _, rfl, rfl, ?_⟩, rfl, ?_, rfl⟩, hPi⟩
  · change ∀ d ∈ [_], _
    rw [List.forall_mem_singleton]
    exact fun _ => rfl
  · exact fun h => absurd h (List.cons_ne_nil _ _)

/-- A malformed number is taken and reported. -/
theorem invalidNumber (hP : ∀ i, P i → (i.peek 0).kind = .invalidNumber)
    (hQ : ∀ i j : Input, P i → (∀ m, j.peek m = i.peek (m + 1)) → Q j) :
    Runs P Rule.invalidNumber (fun _ => Schema.one .invalidNumber) 0 fun _ => Q := by
  intro i hi hPi
  have hk := hP i hPi
  obtain ⟨v, t, us, hn, _⟩ := hi.exists_next (by simp [hk])
  have hrun : Rule.invalidNumber i = ⟨(), Output.report ⟨.invalidNumber t.text, t.span⟩ ++
      (.trivia v ++ .token .invalidNumber t.span), i.after t us⟩ := by
    have hbump : Rule.bump i = _ := bumpAs_next hn (hi.ne_eof hn.mem) (i.peek 0).kind
    change (⟨(), Output.report ⟨.invalidNumber (i.peek 0).text, (i.peek 0).span⟩ ++
      (Rule.bump i).output, (Rule.bump i).rest⟩ : Outcome Unit) = _
    rw [hbump, hk, hn.peek_zero]
  rw [hrun]
  refine ⟨⟨_, _, .badNumber hn, ?_, fun h => ?_, ?_⟩, hQ i _ hPi fun m => ?_⟩
  · rw [Skeleton.kinds_append, Skeleton.kinds_trivia hn.trivia, Skeleton.kinds_singleton rfl]
    exact mem_single.2 rfl
  · exact absurd h (List.cons_ne_nil _ _)
  · rw [Output.diagnostics_append, Output.diagnostics_append, spansOf_append, spansOf_append]
    exact (List.append_nil _).trans (spansOf_comments ProblemKind.noConfusion problem_comment)
  · rw [hn.peek_succ]
    rfl

/-- Tokens in an error node. -/
theorem shows_error {i j : Input} {o : Output} {v us xs : List Token} {t : Token} (hi : i.Proper)
    (hn : i.Next v t us) (h : Takes (i.advance (t :: us)) o j xs) (hxs : xs ≠ []) (e : Expected)
    (found : Found) (resyncs : List Resync) :
    Shows (Schema.one .errorNode) 0 i (⟨[], [⟨.unexpected e found, t.span⟩], resyncs⟩ ++
      (.trivia v ++ .enclosed .errorNode o)) j := by
  refine ⟨_, _, h.reading hn hi hxs e found resyncs, ?_, fun h => ?_, ?_⟩
  · rw [Skeleton.kinds_append, Skeleton.kinds_trivia hn.trivia, Skeleton.kinds_singleton rfl]
    exact mem_single.2 rfl
  · exact absurd h (List.cons_ne_nil _ _)
  · rw [Output.diagnostics_append, Output.diagnostics_append, spansOf_append, spansOf_append]
    have hv := spansOf_comments (k := .unterminatedSection) ProblemKind.noConfusion
      (problem_comment (v := v))
    have ho := spansOf_comments (k := .unterminatedSection) ProblemKind.noConfusion h.comments
    exact List.append_eq_nil_iff.2 ⟨rfl, List.append_eq_nil_iff.2 ⟨hv, ho⟩⟩

/-- One token is skipped. -/
theorem skipToken (e : Expected) (hP : ∀ i, P i → (i.peek 0).kind ≠ .eof) :
    Runs P (Rule.skipToken e) (fun _ => Schema.one .errorNode) 0 fun _ _ => True := by
  intro i hi hPi
  obtain ⟨v, t, us, hn, _⟩ := hi.exists_next (hP i hPi)
  have hi' : (i.advance (t :: us)).Proper := hi.of_suffix rfl ⟨v, hn.tokens.symm⟩
  have hne : ((i.advance (t :: us)).peek 0).kind ≠ .eof := by
    rw [show (i.advance (t :: us)).peek 0 = i.peek 0 from hn.peek_advance 0]
    exact hP i hPi
  obtain ⟨w, u, us', hn', htakes⟩ := Takes.bump hi' hne
  have hrun : Rule.skipToken e i = ⟨(), ⟨[], [⟨.unexpected e (found t), t.span⟩], []⟩ ++
      (.trivia v ++ .enclosed .errorNode (Rule.bump (i.advance (t :: us))).output),
      (Rule.bump (i.advance (t :: us))).rest⟩ := by
    change (⟨(), ⟨[], [⟨.unexpected e (found (i.peek 0)), (i.peek 0).span⟩], []⟩ ++
      (Rule.node .errorNode Rule.bump i).output, (Rule.node .errorNode Rule.bump i).rest⟩ :
      Outcome Unit) = _
    rw [node_run hn.tokens hn.trivia hn.head?, hn.peek_zero]
  rw [hrun]
  exact ⟨shows_error hi hn htakes (by simp) e _ _, trivial⟩

/-- The rest of a statement is skipped. -/
theorem recover (e : Expected) :
    Runs P (Rule.recover e) (fun _ => Schema.skipped) 0 fun _ => At Grammar.statementEnd := by
  intro i hi hPi
  by_cases hat : At Grammar.statementEnd i
  · have hrun : Rule.recover e i = Rule.missing e i := by
      change (if Grammar.statementEnd.contains (i.peek 0).kind = true then Rule.missing e else _) i = _
      exact congrFun (if_pos hat) i
    rw [hrun]
    obtain ⟨hs, _⟩ := missing (P := fun _ => True) e i hi trivial
    exact ⟨hs.mono one_le_optional le_rfl, hat⟩
  · obtain ⟨v, t, us, hn, _⟩ := hi.exists_next (ne_eof_of_not_at hat)
    have hi' : (i.advance (t :: us)).Proper := hi.of_suffix rfl ⟨v, hn.tokens.symm⟩
    obtain ⟨xs, htakes, hend⟩ := Takes.toStatementEnd _ hi'
    rw [recover_run e hat, node_run hn.tokens hn.trivia hn.head?, hn.peek_zero]
    refine ⟨(shows_error hi hn htakes ?_ e _ _).mono le_optional le_rfl, hend⟩
    -- nothing taken would mean that the statement ends here
    rintro rfl
    have hpeek : (toStatementEnd (i.advance (t :: us))).rest.peek 0 = i.peek 0 := by
      rw [← hn.peek_advance 0, Input.peek, Input.peek, htakes.eof]
      exact congrArg _ htakes.tokens.symm
    rw [At, hpeek] at hend
    exact hat hend

/-! ### Nodes and loops -/

/-- A node whose kind the body decides. -/
theorem nodeOf {body : Rule Kind} {B : Kind → Language Kind} (hP : Stable P)
    (hne : ∀ i, P i → (i.peek 0).kind ≠ .eof)
    (hb : Runs P body B G fun k j => k.isNode = true ∧ k ≠ .errorNode ∧ B k ≤ Schema.children k ∧
      [k] ∈ A ∧ Q j) :
    Runs P (Rule.nodeOf body) (fun _ => A) G fun _ => Q := by
  intro i hi hPi
  obtain ⟨v, t, us, hn, _⟩ := hi.exists_next (hne i hPi)
  have hi' : (i.advance (t :: us)).Proper := hi.of_suffix rfl ⟨v, hn.tokens.symm⟩
  obtain ⟨⟨f, xs, hr, hk, hx, hs⟩, hnode, herr, hB, hA, hQ⟩ :=
    hb _ hi' (hP i _ hn.peek_advance rfl hPi)
  have hlead := Reading.trivia hn.tokens hn.trivia
  rw [nodeOf_run hn.tokens hn.trivia hn.head?]
  refine ⟨⟨_, _, hlead.append (hr.node herr (hB hk)), ?_, fun hd => ?_, ?_⟩, hQ⟩
  · rw [Skeleton.kinds_append, Skeleton.kinds_trivia hn.trivia,
      Skeleton.kinds_singleton (s := .node _ f) (Kind.not_isTrivia_of_isNode hnode)]
    exact hA
  · rw [Output.diagnostics_append, List.filter_append, List.append_eq_nil_iff] at hd
    rw [significant_append, significant, Input.filter_trivia hn.trivia]
    exact hx hd.2
  · rw [Output.diagnostics_append, spansOf_append]
    exact List.append_eq_nil_iff.2 ⟨spansOf_comments ProblemKind.noConfusion problem_comment, hs⟩

theorem node {kind : Kind} {body : Rule Unit} {B : Language Kind} (hP : Stable P)
    (hne : ∀ i, P i → (i.peek 0).kind ≠ .eof) (hk : kind.isNode = true) (herr : kind ≠ .errorNode)
    (hB : B ≤ Schema.children kind) (hb : Runs P body (fun _ => B) G fun _ => Q) :
    Runs P (Rule.node kind body) (fun _ => Schema.one kind) G fun _ => Q := by
  refine nodeOf (B := fun _ => B) hP hne ?_
  have := hb.bind (f := fun _ => (Pure.pure kind : Rule Kind)) (R := fun k j => k.isNode = true ∧
    k ≠ .errorNode ∧ B ≤ Schema.children k ∧ [k] ∈ Schema.one kind ∧ Q j)
    fun _ => .pure fun i h => ⟨hk, herr, hB, mem_single.2 rfl, h⟩
  exact this.le (fun _ => (mul_one B).le) (mul_one G).le

/-- A loop. `I x` says in which stage it is, and `L x` what may follow there. -/
theorem loop {ι : Type} {step : Rule Bool} {I : ι → Input → Prop} {L : ι → Language Token}
    (hprogress : Progress step)
    (hstep : ∀ x i, i.Proper → I x i →
      ((step i).value = true ∧ ∃ y G, Shows A G i (step i).output (step i).rest ∧
        I y (step i).rest ∧ G * L y ≤ L x) ∨
      (step i = ⟨false, {}, i⟩ ∧ Q i ∧ 1 ≤ L x)) (x : ι) :
    Runs (I x) (repeatWhile step) (fun _ => A∗) (L x) fun _ => Q := by
  intro i
  induction hlen : i.tokens.length using Nat.strongRecOn generalizing i x with
  | ind len ih =>
    intro hi hI
    rcases hstep x i hi hI with ⟨hv, y, G, hs, hy, hL⟩ | ⟨hrun, hQ, hL⟩
    · have hlt := hprogress i hi hv
      obtain ⟨hmore, hQ⟩ := ih _ (hlen ▸ hlt) y _ rfl (hs.proper hi) hy
      rw [repeatWhile_pos hv hlt]
      exact ⟨(hs.append hmore).mono mul_kstar_le_kstar hL, hQ⟩
    · rw [repeatWhile_neg (by simp [hrun]), hrun]
      exact ⟨(Shows.nil i).mono one_le_kstar hL, hQ⟩

/-- One round of a loop takes something of given languages, or it does nothing and the loop ends. -/
def Round (I Q : Input → Prop) (A : Language Kind) (G : Language Token) (step : Rule Bool)
    (i : Input) : Prop :=
  ((step i).value = true ∧ Shows A G i (step i).output (step i).rest ∧ I (step i).rest) ∨
    (step i = ⟨false, {}, i⟩ ∧ Q i)

theorem round_stop {I : Input → Prop} {i : Input} (h : Q i) : Round I Q A G (Pure.pure false) i :=
  .inr ⟨rfl, h⟩

theorem round_go {p : Rule Unit} {I : Input → Prop} {i : Input}
    (h : Runs P p (fun _ => A) G fun _ => I) (hi : i.Proper) (hP : P i) :
    Round I Q A G (p >>= fun _ => Pure.pure true) i := by
  rw [Round, bind_pure_run]
  exact .inl ⟨rfl, h i hi hP⟩

theorem round_look {α : Type} {g : Input → α} {f : α → Rule Bool} {I : Input → Prop} {i : Input}
    (h : Round I Q A G (f (g i)) i) :
    Round I Q A G ((fun i => ⟨g i, {}, i⟩ : Rule α) >>= f) i := h

theorem round_ite {c : Prop} [Decidable c] {p q : Rule Bool} {I : Input → Prop} {i : Input}
    (h₁ : c → Round I Q A G p i) (h₂ : ¬ c → Round I Q A G q i) :
    Round I Q A G (if c then p else q) i := by
  split_ifs with hc
  · exact h₁ hc
  · exact h₂ hc

/-- A loop whose rounds are all alike. -/
theorem repeatWhile {step : Rule Bool} {I : Input → Prop} (hprogress : Progress step)
    (hstep : ∀ i, i.Proper → I i → Round I Q A G step i) :
    Runs I (Rule.repeatWhile step) (fun _ => A∗) G∗ fun _ => Q := by
  refine loop (ι := Unit) (I := fun _ => I) (L := fun _ => G∗) hprogress (fun _ i hi hI => ?_) ()
  rcases hstep i hi hI with ⟨hv, hs, hI'⟩ | ⟨hrun, hQ⟩
  · exact .inl ⟨hv, (), G, hs, hI', mul_kstar_le_kstar⟩
  · exact .inr ⟨hrun, hQ, one_le_kstar⟩

/-- A loop whose first round takes something. -/
theorem repeatWhile_first {step : Rule Bool} {I : Input → Prop} {A₁ : Language Kind}
    {G₁ : Language Token} (hprogress : Progress step)
    (hfirst : ∀ i, i.Proper → P i →
      (step i).value = true ∧ Shows A₁ G₁ i (step i).output (step i).rest ∧ I (step i).rest)
    (hstep : ∀ i, i.Proper → I i → Round I Q A G step i) :
    Runs P (Rule.repeatWhile step) (fun _ => A₁ * A∗) (G₁ * G∗) fun _ => Q := by
  intro i hi hPi
  obtain ⟨hv, hs, hI⟩ := hfirst i hi hPi
  obtain ⟨hs', hQ⟩ := repeatWhile hprogress hstep _ (hs.proper hi) hI
  rw [repeatWhile_pos hv (hprogress i hi hv)]
  exact ⟨hs.append hs', hQ⟩

end Runs

end Steps

/-! ## Giving up -/

namespace GivesUp

variable {P Q : Input → Prop} {p q : Rule Unit} {A A' B B' C : Language Kind}
  {G G' H : Language Token}

theorem weaken {P' : Input → Prop} (h : GivesUp P p A B G) (hP : ∀ i, P' i → P i) (hA : A ≤ A')
    (hB : B ≤ B') (hG : G ≤ G') : GivesUp P' p A' B' G' := by
  intro i hi hPi
  exact (h i hi (hP i hPi)).imp (fun h => h.mono hA hG) fun h => ⟨h.1.mono hB le_rfl, h.2⟩

theorem of_runs (h : Runs P p (fun _ => A) G fun _ _ => True) : GivesUp P p A B G :=
  fun i hi hPi => .inl (h i hi hPi).1

theorem runs (h : GivesUp P p A B G) : Runs P p (fun _ => A + B) G fun _ _ => True := by
  intro i hi hPi
  rcases h i hi hPi with hs | ⟨hs, _⟩
  · exact ⟨hs.mono le_self_add le_rfl, trivial⟩
  · exact ⟨hs.mono le_add_self zero_le, trivial⟩

theorem recover (e : Expected) : GivesUp P (Rule.recover e) A Schema.skipped G :=
  fun i hi hPi => .inr (Runs.recover e i hi hPi)

theorem bind (hp : Runs P p (fun _ => C) H fun _ => Q) (hq : GivesUp Q q A B G) :
    GivesUp P (p >>= fun _ => q) (C * A) (C * B) (H * G) := by
  intro i hi hPi
  obtain ⟨hs, hQ⟩ := hp i hi hPi
  refine (hq _ (hs.proper hi) hQ).imp (fun h => hs.append h) fun h => ⟨?_, h.2⟩
  exact (hs.append h.1).mono le_rfl (mul_zero H).le

theorem look {α : Type} {g : Input → α} {f : α → Rule Unit}
    (hf : ∀ a, GivesUp (fun i => P i ∧ a = g i) (f a) A B G) :
    GivesUp P ((fun i => ⟨g i, {}, i⟩ : Rule α) >>= f) A B G :=
  fun i hi hPi => hf (g i) i hi ⟨hPi, rfl⟩

theorem ite {c : Prop} [Decidable c] (h₁ : c → GivesUp P p A B G) (h₂ : ¬ c → GivesUp P q A B G) :
    GivesUp P (if c then p else q) A B G := by
  split_ifs with hc
  · exact h₁ hc
  · exact h₂ hc

theorem branch {c : Input → Prop} [∀ i, Decidable (c i)]
    (h₁ : GivesUp (fun i => P i ∧ c i) p A B G) (h₂ : GivesUp (fun i => P i ∧ ¬ c i) q A B G) :
    GivesUp P (fun i => (if c i then p else q) i) A B G := by
  intro i hi hPi
  by_cases hc : c i
  · simp only [if_pos hc]
    exact h₁ i hi ⟨hPi, hc⟩
  · simp only [if_neg hc]
    exact h₂ i hi ⟨hPi, hc⟩

theorem ifAt {s : KindSet} (h₁ : GivesUp (fun i => P i ∧ At s i) p A B G)
    (h₂ : GivesUp (fun i => P i ∧ ¬ At s i) q A B G) :
    GivesUp P (Rule.atSet s >>= fun b => if b = true then p else q) A B G :=
  branch (c := fun i => s.contains (i.peek 0).kind = true) h₁ h₂

end GivesUp

theorem endOfStatement_run {i : Input} (h : At Grammar.statementEnd i) :
    endOfStatement i = ⟨(), {}, i⟩ := by
  change (if Grammar.statementEnd.contains (i.peek 0).kind = true then pure () else _ : Rule Unit) i = _
  exact congrFun (if_pos h) i

theorem runs_endOfStatement {P : Input → Prop} :
    Runs P endOfStatement (fun _ => Schema.skipped) 1 fun _ => At Grammar.statementEnd := by
  refine .ifAt ?_ ?_
  · exact (Runs.pure fun i h => h.2).le (fun _ => one_le_optional) le_rfl
  · exact (Runs.recover _).le (fun _ => le_rfl) zero_le

/-- The end of a statement after a rule that may have skipped up to it. -/
theorem GivesUp.ended {P : Input → Prop} {p : Rule Unit} {A B C : Language Kind}
    {G : Language Token} (h : GivesUp P p A B G) (hA : A * Schema.skipped ≤ C) (hB : B ≤ C) :
    Runs P (p >>= fun _ => endOfStatement) (fun _ => C) G fun _ => At Grammar.statementEnd := by
  intro i hi hPi
  rcases h i hi hPi with hs | ⟨hs, hend⟩
  · obtain ⟨hs', hend⟩ := runs_endOfStatement (P := fun _ => True) _ (hs.proper hi) trivial
    exact ⟨(hs.append hs').mono hA (mul_one G).le, hend⟩
  · rw [bind_run, endOfStatement_run hend]
    refine ⟨?_, hend⟩
    rw [Output.append_empty]
    exact hs.mono hB zero_le

end Rule

end LpFormat
