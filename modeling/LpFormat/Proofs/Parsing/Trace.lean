import LpFormat.Proofs.Parsing.Input
import LpFormat.Proofs.Tree.Build

/-!
# Traces of rules

A trace tells what a rule took and what it left for it: every token taken is one leaf, in order, and
every diagnostic stands at a token taken or right after one.

* `Token.ShownAs`: how a token may be named in a tree;
* `Trace`: the ways to take tokens and to report, and nothing else;
* **`Trace.tokens_eq`**, **`Trace.shown`**: the leaves are the tokens taken;
* `Trace.ends`: the last token taken is significant;
* `Trace.forest_proper`: nodes are never empty;
* **`Trace.located`**: where diagnostics stand; `Trace.comments_eq`: those for comments.
-/

namespace LpFormat

/-- The kinds under which a token may be in a tree: its own, and two more for some identifiers. -/
inductive Token.ShownAs (t : Token) : Kind → Prop where
  | same : ShownAs t t.kind
  | free (hk : t.kind = .ident) (h : Grammar.isFree t.text = true) : ShownAs t .freeKw
  | sosType (hk : t.kind = .ident) (h : Grammar.isSosType t.text = true) : ShownAs t .sosType

theorem Token.ShownAs.lexedAs {t : Token} {kind : Kind} (h : t.ShownAs kind)
    (ht : t.kind.isLexed = true) : kind.lexedAs = t.kind ∧ kind.isToken = true := by
  cases h with
  | same =>
    simp only [Kind.isLexed, Bool.and_eq_true, beq_iff_eq] at ht
    exact ⟨ht.2, ht.1.1⟩
  | free hk _ => exact ⟨hk.symm, rfl⟩
  | sosType hk _ => exact ⟨hk.symm, rfl⟩

/-- Leaves for trivia. -/
def Skeleton.trivia (v : List Token) : List Skeleton := v.map fun t => .leaf t.kind t.span

theorem Skeleton.eventsAll_trivia (v : List Token) :
    eventsAll (trivia v) = v.map fun t => .token t.kind t.span := by
  induction v with
  | nil => rfl
  | cons t v ih => exact congrArg _ ih

theorem Skeleton.leavesOf_trivia (v : List Token) :
    leavesOf (eventsAll (trivia v)) = v.map fun t => (t.kind, t.span) := by
  rw [eventsAll_trivia, leavesOf, List.filterMap_map]
  induction v with
  | nil => rfl
  | cons t v ih => exact congrArg _ ih

/-- A rule that started in a place took some tokens, left a forest and diagnostics for them, and
ended in another place. A node begins with the significant token next. `K` says which kinds the rule
may take and wrap in, and pieces may be missing only after more than `n` significant tokens. -/
inductive Trace (K : Kind → Prop) (n : Nat) :
    Input → List Token → List Skeleton → List Diagnostic → Input → Prop where
  | nil (i : Input) : Trace K n i [] [] [] i
  | append {i j k : Input} {xs ys : List Token} {f g : List Skeleton} {ds es : List Diagnostic}
      (h : Trace K n i xs f ds j) (h' : Trace K n j ys g es k) :
      Trace K n i (xs ++ ys) (f ++ g) (ds ++ es) k
  | token {i : Input} {v us : List Token} {t : Token} {kind : Kind} (h : i.Next v t us)
      (hK : K t.kind) (hs : t.ShownAs kind) :
      Trace K n i (v ++ [t]) (Skeleton.trivia v ++ [.leaf kind t.span])
        (v.filterMap Rule.commentDiagnostic?) (i.after t us)
  | node {i j : Input} {v us xs : List Token} {f : List Skeleton} {ds : List Diagnostic}
      {kind : Kind} (ht : i.tokens = v ++ us) (hv : AllTrivia v)
      (hus : ∀ t ∈ us.head?, t.kind.isTrivia = false) (hk : kind.isNode = true)
      (hK : K kind) (h : Trace K n (i.advance us) xs f ds j) (hxs : xs ≠ []) :
      Trace K n i (v ++ xs) (Skeleton.trivia v ++ [.node kind f])
        (v.filterMap Rule.commentDiagnostic? ++ ds) j
  | missing {i : Input} (e : Expected) (h : n < i.taken) :
      Trace K n i [] [] [⟨.missing e, .empty i.takenEnd⟩] i
  | report {i j : Input} {v us xs : List Token} {t : Token} {f : List Skeleton}
      {ds es : List Diagnostic} {problem : Problem} (hn : i.Next v t us) (hxs : xs ≠ [])
      (hp : problem ≠ .unclosedComment) (h : Trace K n i xs f (ds ++ es) j) :
      Trace K n i xs f (ds ++ ⟨problem, t.span⟩ :: es) j

namespace Trace

variable {K : Kind → Prop} {n : Nat} {i j : Input} {xs : List Token} {f : List Skeleton}
  {ds : List Diagnostic}

theorem mono {K' : Kind → Prop} {m : Nat} (h : Trace K n i xs f ds j) (hK : ∀ k, K k → K' k)
    (hm : m ≤ n) : Trace K' m i xs f ds j := by
  induction h with
  | nil i => exact .nil i
  | append _ _ ih ih' => exact .append ih ih'
  | token h hk hs => exact .token h (hK _ hk) hs
  | node ht hv hus hk hk' _ hxs ih => exact .node ht hv hus hk (hK _ hk') ih hxs
  | missing e h => exact .missing e (Nat.lt_of_le_of_lt hm h)
  | report hn hxs hp _ ih => exact .report hn hxs hp ih

theorem tokens_eq (h : Trace K n i xs f ds j) : i.tokens = xs ++ j.tokens := by
  induction h with
  | nil i => rfl
  | append _ _ ih ih' => rw [ih, ih', List.append_assoc]
  | token h _ _ =>
    rw [h.tokens, List.append_assoc]
    rfl
  | node ht _ _ _ _ _ _ ih =>
    rw [ht, List.append_assoc]
    exact congrArg _ ih
  | missing e h => rfl
  | report _ _ _ _ ih => exact ih

theorem eof_eq (h : Trace K n i xs f ds j) : j.eof = i.eof := by
  induction h with
  | nil i => rfl
  | append _ _ ih ih' => rw [ih', ih]
  | token h _ _ => rfl
  | node _ _ _ _ _ _ _ ih => exact ih
  | missing e h => rfl
  | report _ _ _ _ ih => exact ih

theorem proper (h : Trace K n i xs f ds j) (hi : i.Proper) : j.Proper :=
  hi.of_suffix h.eof_eq ⟨xs, h.tokens_eq.symm⟩

/-- The number of significant tokens of a list. -/
def significant (xs : List Token) : Nat := xs.countP fun t => !t.kind.isTrivia

theorem significant_trivia {v : List Token} (hv : AllTrivia v) : significant v = 0 := by
  rw [significant, List.countP_eq_zero]
  intro t ht
  simp [hv t ht]

theorem significant_append (xs ys : List Token) :
    significant (xs ++ ys) = significant xs + significant ys := List.countP_append

theorem taken_eq (h : Trace K n i xs f ds j) : j.taken = i.taken + significant xs := by
  induction h with
  | nil i => rfl
  | append _ _ ih ih' => rw [ih', ih, significant_append, Nat.add_assoc]
  | @token i v us t kind h _ _ =>
    have ht : significant [t] = 1 := by simp [significant, h.significant]
    rw [significant_append, significant_trivia h.trivia, ht]
    rfl
  | node _ hv _ _ _ _ _ ih =>
    rw [significant_append, significant_trivia hv, Nat.zero_add]
    exact ih
  | missing e h => rfl
  | report _ _ _ _ ih => exact ih

theorem taken_le (h : Trace K n i xs f ds j) : i.taken ≤ j.taken := by
  rw [h.taken_eq]
  exact Nat.le_add_right _ _

/-- Either nothing was taken, or the last token taken is significant and is noted as such. -/
theorem ends (h : Trace K n i xs f ds j) : xs = [] ∧ j = i ∨
    ∃ ys t, xs = ys ++ [t] ∧ t.kind.isTrivia = false ∧ j.takenEnd = t.span.stop ∧
      j.lastKind = some t.kind := by
  induction h with
  | nil i => exact .inl ⟨rfl, rfl⟩
  | append _ _ ih ih' =>
    rcases ih' with ⟨rfl, rfl⟩ | ⟨ys, t, rfl, ht⟩
    · rwa [List.append_nil]
    · exact .inr ⟨_, t, (List.append_assoc _ _ _).symm, ht⟩
  | @token i v us t kind h _ _ => exact .inr ⟨v, t, rfl, h.significant, rfl, rfl⟩
  | @node i j v us xs f ds kind _ _ _ _ _ _ hxs ih =>
    rcases ih with ⟨rfl, _⟩ | ⟨ys, t, rfl, ht⟩
    · exact absurd rfl hxs
    · exact .inr ⟨v ++ ys, t, (List.append_assoc _ _ _).symm, ht⟩
  | missing e h => exact .inl ⟨rfl, rfl⟩
  | report _ _ _ _ ih => exact ih

theorem taken_lt_iff (h : Trace K n i xs f ds j) : i.taken < j.taken ↔ xs ≠ [] := by
  rw [h.taken_eq]
  constructor
  · rintro hlt rfl
    exact Nat.lt_irrefl _ hlt
  · intro hne
    rcases h.ends with ⟨hnil, _⟩ | ⟨ys, t, rfl, ht, _⟩
    · exact absurd hnil hne
    · have : significant [t] = 1 := by simp [significant, ht]
      rw [significant_append, this]
      omega

/-- A rule that takes something takes the next significant token. -/
theorem next_mem {v us : List Token} {t : Token} (h : Trace K n i xs f ds j) (hn : i.Next v t us)
    (hxs : xs ≠ []) : t ∈ xs := by
  have heq := hn.tokens.symm.trans h.tokens_eq
  rcases h.ends with ⟨hnil, _⟩ | ⟨ys, u, rfl, hu, _⟩
  · exact absurd hnil hxs
  · -- the last token taken is significant, so it is not among the trivia in front
    have hnot : u ∉ v := by
      intro hmem
      rw [hn.trivia u hmem] at hu
      cases hu
    rcases List.append_eq_append_iff.1 heq with ⟨as, has, hbs⟩ | ⟨bs, hbs, _⟩
    · cases as with
      | nil =>
        rw [List.append_nil] at has
        exact absurd (has ▸ List.mem_concat_self) hnot
      | cons a as =>
        obtain ⟨rfl, _⟩ := List.cons.inj hbs
        rw [has]
        exact List.mem_append_right _ List.mem_cons_self
    · rw [hbs] at hnot
      exact absurd (List.mem_append_left _ List.mem_concat_self) hnot

theorem rest_length_le {v us : List Token} {t : Token} (h : Trace K n i xs f ds j)
    (hn : i.Next v t us) (hxs : xs ≠ []) : j.tokens.length ≤ us.length := by
  have hmem := next_mem h hn hxs
  have heq := hn.tokens.symm.trans h.tokens_eq
  rcases List.append_eq_append_iff.1 heq with ⟨as, rfl, has⟩ | ⟨bs, rfl, _⟩
  · cases as with
    | nil =>
      rw [List.append_nil] at hmem
      have := hn.trivia t hmem
      rw [hn.significant] at this
      cases this
    | cons a as =>
      have hus : us = as ++ j.tokens := (List.cons.inj has).2
      rw [hus, List.length_append]
      exact Nat.le_add_left _ _
  · have := hn.trivia t (List.mem_append_left _ hmem)
    rw [hn.significant] at this
    cases this

theorem kinds (h : Trace K n i xs f ds j) : ∀ t ∈ xs, t.kind.isTrivia = false → K t.kind := by
  induction h with
  | nil i => exact List.forall_mem_nil _
  | append _ _ ih ih' => exact List.forall_mem_append.2 ⟨ih, ih'⟩
  | token h hK _ =>
    refine List.forall_mem_append.2 ⟨fun t ht hsig => ?_, ?_⟩
    · rw [h.trivia t ht] at hsig
      cases hsig
    · rw [List.forall_mem_singleton]
      exact fun _ => hK
  | node _ hv _ _ _ _ _ ih =>
    refine List.forall_mem_append.2 ⟨fun t ht hsig => ?_, ih⟩
    rw [hv t ht] at hsig
    cases hsig
  | missing e h => exact List.forall_mem_nil _
  | report _ _ _ _ ih => exact ih

/-- A leaf of the tree for a token. -/
structure Leaf (t : Token) (leaf : Kind × Span) : Prop where
  shown : t.ShownAs leaf.1
  span : leaf.2 = t.span

theorem leaf_trivia (v : List Token) :
    List.Forall₂ Leaf v (leavesOf (Skeleton.eventsAll (Skeleton.trivia v))) := by
  rw [Skeleton.leavesOf_trivia, List.forall₂_map_right_iff]
  exact List.forall₂_same.2 fun t _ => ⟨.same, rfl⟩

/-- **Every token taken is one leaf, in order.** -/
theorem shown (h : Trace K n i xs f ds j) :
    List.Forall₂ Leaf xs (leavesOf (Skeleton.eventsAll f)) := by
  induction h with
  | nil i => exact .nil
  | append _ _ ih ih' =>
    rw [Skeleton.eventsAll_append, leavesOf_append]
    exact List.rel_append ih ih'
  | @token i v us t kind h _ hs =>
    rw [Skeleton.eventsAll_append, leavesOf_append]
    exact List.rel_append (leaf_trivia v) (.cons ⟨hs, rfl⟩ .nil)
  | @node i j v us xs f ds kind _ _ _ _ _ _ _ ih =>
    rw [Skeleton.eventsAll_append, leavesOf_append, Skeleton.eventsAll_singleton, Skeleton.events,
      leavesOf_enclosed]
    exact List.rel_append (leaf_trivia v) ih
  | missing e h => exact .nil
  | report _ _ _ _ ih => exact ih

/-- Nodes are never empty. -/
theorem forest_proper (h : Trace K n i xs f ds j) (hi : i.Proper) : ∀ s ∈ f, s.Proper := by
  have htrivia : ∀ {i : Input} {v us : List Token}, i.Proper → i.tokens = v ++ us →
      ∀ s ∈ Skeleton.trivia v, s.Proper := by
    intro i v us hi ht s hs
    obtain ⟨t, htv, rfl⟩ := List.mem_map.1 hs
    have hmem : t ∈ i.tokens := ht ▸ List.mem_append_left _ htv
    exact .leaf (Token.ShownAs.same.lexedAs (hi.lexed t hmem)).2 (hi.solid t hmem)
  induction h with
  | nil i => exact List.forall_mem_nil _
  | append h _ ih ih' => exact List.forall_mem_append.2 ⟨ih hi, ih' (h.proper hi)⟩
  | token h _ hs =>
    refine List.forall_mem_append.2 ⟨htrivia hi h.tokens, ?_⟩
    rw [List.forall_mem_singleton]
    exact .leaf (hs.lexedAs (hi.lexed _ h.mem)).2 (hi.solid _ h.mem)
  | @node i j v us xs f ds kind ht hv _ hk _ h hxs ih =>
    refine List.forall_mem_append.2 ⟨htrivia hi ht, ?_⟩
    have hi' : (i.advance us).Proper := hi.of_suffix rfl ⟨v, ht.symm⟩
    rw [List.forall_mem_singleton]
    refine .node hk ?_ (ih hi')
    rintro rfl
    have hshown := h.shown
    cases hshown
    exact hxs rfl
  | missing e h => exact List.forall_mem_nil _
  | report _ _ _ _ ih => exact ih hi

/-- A node among the events is of a kind that may be wrapped in. -/
theorem start_mem (h : Trace K n i xs f ds j) {k : Kind}
    (hk : .start k ∈ Skeleton.eventsAll f) : K k := by
  have htrivia : ∀ v : List Token, .start k ∉ Skeleton.eventsAll (Skeleton.trivia v) := by
    intro v hv
    rw [Skeleton.eventsAll_trivia] at hv
    obtain ⟨t, _, ht⟩ := List.mem_map.1 hv
    cases ht
  induction h with
  | nil i => cases hk
  | append _ _ ih ih' =>
    rw [Skeleton.eventsAll_append, List.mem_append] at hk
    exact hk.elim ih ih'
  | token h _ hs =>
    rw [Skeleton.eventsAll_append, List.mem_append] at hk
    rcases hk with hk | hk
    · exact absurd hk (htrivia _)
    · simp [Skeleton.eventsAll, Skeleton.events] at hk
  | node _ _ _ _ hK _ _ ih =>
    rw [Skeleton.eventsAll_append, List.mem_append] at hk
    rcases hk with hk | hk
    · exact absurd hk (htrivia _)
    · rw [Skeleton.eventsAll_singleton, Skeleton.events, List.mem_cons, List.mem_append,
        List.mem_singleton] at hk
      rcases hk with hk | hk | hk
      · cases hk
        exact hK
      · exact ih hk
      · cases hk
  | missing e h => cases hk
  | report _ _ _ _ ih => exact ih hk

/-- A diagnostic stands at a token, or right after a significant one. -/
def At (d : Diagnostic) (t : Token) : Prop :=
  d.span = t.span ∨ t.kind.isTrivia = false ∧ d.span = .empty t.span.stop

theorem At.span_le {d : Diagnostic} {t : Token} (h : At d t) (ht : t.span.start < t.span.stop) :
    d.span.start ≤ d.span.stop := by
  rcases h with h | ⟨_, h⟩
  · rw [h]
    exact Nat.le_of_lt ht
  · rw [h]
    exact Nat.le_refl _

theorem at_trivia {v : List Token} {d : Diagnostic}
    (hd : d ∈ v.filterMap Rule.commentDiagnostic?) : ∃ t ∈ v, At d t := by
  obtain ⟨t, ht, he⟩ := List.mem_filterMap.1 hd
  rw [Rule.commentDiagnostic?] at he
  split_ifs at he
  cases he
  exact ⟨t, ht, .inl rfl⟩

/-- **Every diagnostic stands at a token that was taken or right after one.** Only a piece that is
missing before anything was taken is reported further ahead. -/
theorem located (h : Trace K n i xs f ds j) : ∀ d ∈ ds,
    (∃ t ∈ xs, At d t) ∨ n < i.taken ∧ d.span = .empty i.takenEnd := by
  induction h with
  | nil i => exact List.forall_mem_nil _
  | append h _ ih ih' =>
    refine List.forall_mem_append.2 ⟨fun d hd => ?_, fun d hd => ?_⟩
    · rcases ih d hd with ⟨t, ht, hdt⟩ | hd
      · exact .inl ⟨t, List.mem_append_left _ ht, hdt⟩
      · exact .inr hd
    · rcases ih' d hd with ⟨t, ht, hdt⟩ | ⟨hn, hd⟩
      · exact .inl ⟨t, List.mem_append_right _ ht, hdt⟩
      · -- what is missing in the second part stands right after the first
        rcases h.ends with ⟨rfl, rfl⟩ | ⟨ys, t, rfl, ht, hend, _⟩
        · exact .inr ⟨hn, hd⟩
        · refine .inl ⟨t, by simp, .inr ⟨ht, ?_⟩⟩
          rw [hd, hend]
  | token h _ _ =>
    intro d hd
    obtain ⟨t, ht, hdt⟩ := at_trivia hd
    exact .inl ⟨t, List.mem_append_left _ ht, hdt⟩
  | node _ _ _ _ _ _ _ ih =>
    refine List.forall_mem_append.2 ⟨fun d hd => ?_, fun d hd => ?_⟩
    · obtain ⟨t, ht, hdt⟩ := at_trivia hd
      exact .inl ⟨t, List.mem_append_left _ ht, hdt⟩
    · rcases ih d hd with ⟨t, ht, hdt⟩ | hd
      · exact .inl ⟨t, List.mem_append_right _ ht, hdt⟩
      · exact .inr hd
  | missing e h =>
    rw [List.forall_mem_singleton]
    exact .inr ⟨h, rfl⟩
  | @report i j v us xs t f ds es problem hn hxs _ h ih =>
    intro d hd
    rw [List.mem_append, List.mem_cons, or_left_comm, ← List.mem_append] at hd
    rcases hd with rfl | hd
    · exact .inl ⟨t, next_mem h hn hxs, .inl rfl⟩
    · exact ih d hd

/-- Whether a diagnostic is about a comment. -/
def ofComment (d : Diagnostic) : Bool := d.problem == .unclosedComment

theorem filter_comments (v : List Token) :
    (v.filterMap Rule.commentDiagnostic?).filter ofComment =
      v.filterMap Rule.commentDiagnostic? := by
  rw [List.filter_eq_self]
  intro d hd
  obtain ⟨t, _, he⟩ := List.mem_filterMap.1 hd
  rw [Rule.commentDiagnostic?] at he
  split_ifs at he
  cases he
  rfl

theorem commentDiagnostic?_significant {t : Token} (ht : t.kind.isTrivia = false) :
    Rule.commentDiagnostic? t = none := by
  rw [Rule.commentDiagnostic?, if_neg]
  rintro ⟨hk, _⟩
  rw [hk] at ht
  cases ht

/-- The diagnostics for comments are those of the comments taken. -/
theorem comments_eq (h : Trace K n i xs f ds j) :
    ds.filter ofComment = xs.filterMap Rule.commentDiagnostic? := by
  induction h with
  | nil i => rfl
  | append _ _ ih ih' => rw [List.filter_append, ih, ih', List.filterMap_append]
  | token h _ _ =>
    rw [filter_comments, List.filterMap_append, List.filterMap_cons,
      commentDiagnostic?_significant h.significant, List.filterMap_nil, List.append_nil]
  | node _ _ _ _ _ _ _ ih =>
    rw [List.filter_append, filter_comments, ih, List.filterMap_append]
  | missing e h => rfl
  | @report i j v us xs t f ds es problem _ _ hp _ ih =>
    have hd : ¬ ofComment ⟨problem, t.span⟩ = true := by simpa [ofComment] using hp
    rw [List.filter_append, List.filter_cons_of_neg hd, ← List.filter_append, ih]

end Trace

end LpFormat
