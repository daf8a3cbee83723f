import LpFormat.Proofs.Parsing.Replace
import LpFormat.Proofs.Parsing.Trim
import LpFormat.Proofs.Reparse.Place

/-!
# Statements in their place

A statement that stands directly in a section or in the document is read in one round of a body. If
it does not follow another entry on its line, that round starts with it.

* `Cursor.Placed.seat`: the round that reads a statement of the tree;
* `Rule.Seat.opening`: the statement is the first node of its round;
* **`Cursor.Placed.exists_round`**: the tokens of the round, where it starts, and what it leaves.
-/

namespace LpFormat

/-- All comments among trivia with something behind them are closed. -/
theorem comments_eq_nil {v : List Token}
    (h : ∀ t ∈ v, t.kind = .blockComment → isClosedComment t.text = true) :
    v.filterMap Rule.commentDiagnostic? = [] := by
  rw [List.filterMap_eq_nil_iff]
  intro t ht
  rw [Rule.commentDiagnostic?]
  refine if_neg fun hc => hc.2 (h t ht hc.1)

namespace Cursor.Placed

variable {c : Cursor} {f : List Skeleton} {size : Nat}

/-- The path of a node ends at the root: the node below the root and all around it are the forest. -/
theorem forest_eq (h : c.Placed f size) {init : List Crumb} {top : Crumb}
    (hpath : c.path = init ++ [top]) : top.kind = .document ∧
      f = top.before.reverse.map Node.skeleton ++ (⟨c.focus, init⟩ : Cursor).root.skeleton ::
        top.after.map Node.skeleton := by
  have hroot : c.root = top.plug (⟨c.focus, init⟩ : Cursor).root := by
    rw [root, hpath, List.foldl_append]
    rfl
  have hf := h.rooted.skeletons
  have hk := h.rooted.kind
  rw [hroot] at hf hk
  refine ⟨hk, ?_⟩
  rw [← hf, Crumb.children_plug, List.map_append, List.map_cons]

/-- The rule of a section is that of its keyword. -/
theorem ruleAt?_of_keyword {k top : Crumb} {keyword : Kind} {span : Span} {s : SectionRule}
    (hpath : c.path = [k, top]) (hk : k.kind = .sectionNode)
    (hhead : (k.before.reverse.map Node.skeleton).head? = some (.leaf keyword span))
    (hs : Grammar.section? keyword = some s) : Parse.ruleAt? c = some s.rule := by
  obtain ⟨n, hn, hkind⟩ : ∃ n, (k.plug c.focus).children.head? = some n ∧ n.kind = keyword := by
    rw [List.head?_map, Option.map_eq_some_iff] at hhead
    obtain ⟨n, hn, hskeleton⟩ := hhead
    refine ⟨n, ?_, ?_⟩
    · rw [Crumb.children_plug, List.head?_append, hn]
      rfl
    · rw [← Node.kind_skeleton, hskeleton]
      rfl
  have hsection : (k.plug c.focus).kind = .sectionNode := hk
  rw [Parse.ruleAt?, parent?, hpath]
  simp [hsection, hn, hkind, hs]

/-- Deeper inside there are no sections. -/
theorem inner_kind {i : Input} (hi : i.Proper) (h : c.Placed f size)
    (he : (Rule.document i).output.events =
      .start .document :: (Skeleton.eventsAll f ++ [.finish])) {k k' top : Crumb} {init : List Crumb}
    (hpath : c.path = (k :: k' :: init) ++ [top]) : k.kind ≠ .document ∧ k.kind ≠ .sectionNode := by
  obtain ⟨_, hf⟩ := h.forest_eq hpath
  have hall : ∀ q ∈ k :: k' :: init, q.kind.isNode = true := fun q hq =>
    (h.fitted.2 q (hpath ▸ List.mem_append_left _ hq)).kind
  have hevents := root_events hall c.focus
  obtain ⟨e, es, hbeside⟩ : ∃ e es, Crumb.eventsBefore (k' :: init) = e :: es :=
    List.exists_cons_of_ne_nil (by simp [Crumb.eventsBefore])
  cases hsk : (⟨c.focus, k :: k' :: init⟩ : Cursor).root.skeleton with
  | leaf kind span =>
    rw [hsk, Skeleton.events, Crumb.eventsBefore, hbeside] at hevents
    have := congrArg List.length hevents
    simp at this
  | node kind cs =>
    rw [hf, hsk] at he
    refine (Rule.document_nesting hi he).2 k.kind ?_
    rw [hsk, Skeleton.events, Crumb.eventsBefore, hbeside] at hevents
    have hmem : .start k.kind ∈ Skeleton.eventsAll cs ++ [.finish] := by
      rw [(List.cons.inj hevents).2]
      simp
    simpa using hmem

/-- The round of a body that reads a statement of a tree, with the rule of its section. -/
theorem seat {i : Input} (hi : i.Proper) (h : c.Placed f size)
    (he : (Rule.document i).output.events =
      .start .document :: (Skeleton.eventsAll f ++ [.finish]))
    (hout : Parse.isOuterStatement c = true) : ∃ rule, Parse.ruleAt? c = some rule ∧
      ∃ j pre post g₁ g₂, Rule.Seat i rule j pre post g₁ c.focus.skeleton g₂ ∧
        Crumb.eventsBefore c.path = .start .document :: (pre.events ++ Skeleton.eventsAll g₁) := by
  rw [Parse.isOuterStatement, Bool.and_eq_true] at hout
  obtain ⟨hstatement, hparent⟩ := hout
  have hnode := Kind.isNode_of_isStatement hstatement
  have hbefore : ∀ ns : List Node, (ns.flatMap fun n => n.skeleton.events) =
      Skeleton.eventsAll (ns.map Node.skeleton) := by
    intro ns
    rw [Skeleton.eventsAll_eq_flatMap, List.flatMap_map]
  obtain ⟨init, top, hpath⟩ : ∃ init top, c.path = init ++ [top] :=
    ⟨_, _, (List.dropLast_concat_getLast h.below).symm⟩
  obtain ⟨htop, hf⟩ := h.forest_eq hpath
  match init, hpath with
  | [], hpath =>
    rw [hf, root, List.foldl_nil, Node.skeleton_of_isNode hnode] at he
    obtain ⟨j, pre, post, g₁, g₂, hseat, hg⟩ := Rule.seat_top hi he hstatement
    have hr : Parse.ruleAt? c = some .implicit := by
      rw [Parse.ruleAt?, parent?, hpath]
      simp [Crumb.plug, htop]
    refine ⟨.implicit, hr, j, pre, post, g₁, g₂, Node.skeleton_of_isNode hnode ▸ hseat, ?_⟩
    rw [hpath, List.nil_append, Crumb.eventsBefore, Crumb.eventsBefore, htop, hbefore, ← hg]
    rfl
  | [k], hpath =>
    have hknode : k.kind.isNode = true := (h.fitted.2 k (by simp [hpath])).kind
    have hroot : (⟨c.focus, [k]⟩ : Cursor).root.skeleton =
        .node k.kind (k.before.reverse.map Node.skeleton ++ c.focus.skeleton ::
          k.after.map Node.skeleton) := by
      rw [root, List.foldl_cons, List.foldl_nil, Node.skeleton_of_isNode hknode,
        Crumb.children_plug, List.map_append, List.map_cons]
      rfl
    rw [hf, hroot] at he
    have hk : k.kind = .sectionNode := by
      have hne := (Rule.document_nesting hi he).1
      rw [hpath] at hparent
      simpa [hne] using hparent
    rw [hk, Node.skeleton_of_isNode hnode] at he
    obtain ⟨s, keyword, span, j, pre, post, g₁, g₂, hseat, hhead, hs, hg⟩ :=
      Rule.seat_inside hi he hstatement
    have hr := ruleAt?_of_keyword hpath hk hhead hs
    refine ⟨s.rule, hr, j, pre, post, g₁, g₂, Node.skeleton_of_isNode hnode ▸ hseat, ?_⟩
    rw [hpath, ← hg]
    simp only [List.cons_append, List.nil_append, Crumb.eventsBefore, htop, hk, hbefore]
  | k :: k' :: init, hpath =>
    have hkinds := h.inner_kind hi he hpath
    rw [hpath] at hparent
    simp [hkinds] at hparent

end Cursor.Placed

/-! ## Where the round starts -/

namespace Rule

variable {i j : Input} {rule : StatementRule} {pre : Output} {post : Input → Output}

/-- What a document took before a statement, in order. -/
theorem Reaches.trace (h : Reaches i rule j pre post) (hi : i.Proper) :
    ∃ xs f, Trace (fun _ => True) 0 i xs f pre.diagnostics j ∧
      leavesOf pre.events = leavesOf (Skeleton.eventsAll f) := by
  have hall : ∀ {K : Kind → Prop} {i j : Input} {xs f ds}, Trace K 0 i xs f ds j →
      Trace (fun _ => True) 0 i xs f ds j :=
    fun h => h.mono (fun _ _ => trivial) (Nat.le_refl _)
  cases h with
  | top h =>
    obtain ⟨xs, f, ht, he⟩ := h.trace (trace_bodyStep .implicit) hi (Nat.zero_le _)
    exact ⟨xs, f, hall ht, by rw [he]⟩
  | @inside s k _ o p v us t hsections hs hn h =>
    have hbody := spec_body (K := fun _ => True) (P := fun _ => True) (fun _ _ => trivial) trivial
      .implicit i hi (Nat.zero_le _) trivial
    obtain ⟨xs, f, ht, he⟩ := hbody.trace
    have hi₁ := ht.proper hi
    obtain ⟨ys, g, ht', he'⟩ := hsections.trace trace_sectionsStep hi₁ (Nat.zero_le _)
    have hk := ht'.proper hi₁
    have hkeyword := Trace.token (K := fun _ => True) (n := 0) hn trivial .same
    obtain ⟨zs, g', ht'', he''⟩ := h.trace (trace_bodyStep s.rule) (hkeyword.proper hk)
      (Nat.zero_le _)
    have hds : (o ++ (.trivia v ++ (.opening .sectionNode ++ (.token t.kind t.span ++ p)))).diagnostics =
        o.diagnostics ++ (v.filterMap commentDiagnostic? ++ p.diagnostics) := by
      simp [Output.trivia, Output.opening, Output.token]
    have htrace := ht.append ((hall ht').append (hkeyword.append (hall ht'')))
    rw [← hds, ← Output.diagnostics_append] at htrace
    refine ⟨_, _, htrace, ?_⟩
    simp only [Output.events_append, Skeleton.eventsAll_append, leavesOf_append, he, he', he'']
    rw [Skeleton.eventsAll_trivia, List.append_assoc]
    rfl

/-- Trivia are leaves: a node in a forest that starts with trivia and a node comes after them. -/
theorem trivia_append_cases {v : List Token} {k : Kind} {g more g₁ g₂ cs : List Skeleton} {kind : Kind}
    (h : Skeleton.trivia v ++ .node k g :: more = g₁ ++ .node kind cs :: g₂) :
    g₁ = Skeleton.trivia v ∧ more = g₂ ∨
      ∃ m, g₁ = Skeleton.trivia v ++ .node k g :: m ∧ more = m ++ .node kind cs :: g₂ := by
  rcases append_eq_append_cons h with ⟨m, hm, _⟩ | ⟨m, hm, rfl⟩
  · have hmem : Skeleton.node kind cs ∈ Skeleton.trivia v := by
      rw [hm]
      simp
    obtain ⟨t, _, ht⟩ := List.mem_map.1 hmem
    cases ht
  · cases m with
    | nil => exact .inl ⟨List.append_nil _, (List.cons.inj hm).2⟩
    | cons x m =>
      obtain ⟨rfl, rfl⟩ := List.cons.inj hm
      exact .inr ⟨m, rfl, rfl⟩

end Rule

/-- A node ends with a significant token. -/
theorem Trace.node_ends {K : Kind → Prop} {n : Nat} {i j : Input} {xs : List Token}
    {f : List Skeleton} {ds : List Diagnostic} (h : Trace K n i xs f ds j) {k : Kind}
    {g : List Skeleton} (hk : .node k g ∈ f) :
    ∀ l ∈ (leavesOf (Skeleton.eventsAll g)).getLast?, l.1.isTrivia = false := by
  cases h.trimmed _ hk with
  | node _ last _ => exact last

/-- What may occur inside one line does not end it. -/
theorem inline_statementEnd : Rule.Inline fun k => Grammar.statementEnd.contains k = false :=
  fun _ => Kind.not_statementEnd_of_isInline

/-! ## The round of a statement -/

/-- The round that reads a statement which follows no other on its line: the tokens before it, its
own, and what the document has left before it. -/
structure Cursor.Round (c : Cursor) (i : Input) (rule : StatementRule) (j : Input) (pre : Output)
    (post : Input → Output) (A v : List Token) (t : Token) (us : List Token)
    (more : List Skeleton) : Prop where
  reaches : Rule.Reaches i rule j pre post
  proper : j.Proper
  inside : ¬ Rule.At Grammar.statementEnd j
  next : j.Next v t us
  tokens : i.tokens = A ++ t :: us
  takenEnd : (c.prevSignificant?.map fun n => n.span.stop).getD 0 = j.takenEnd
  before : Crumb.eventsBefore c.path =
    .start .document :: (pre.events ++ (Output.trivia v).events)
  run : Rule.statement rule j = ⟨(), .trivia v ++ (Rule.statement rule (j.advance (t :: us))).output,
    (Rule.statement rule (j.advance (t :: us))).rest⟩
  forest : (Rule.statement rule (j.advance (t :: us))).output.events =
    Skeleton.eventsAll (c.focus.skeleton :: more)
  single : rule ≠ .sos → more = []

/-- Trivia before a significant token of a text hold no open comment. -/
theorem comments_of_lex {text : Text} {xs us : List Token} {t : Token}
    (h : lex text = xs ++ t :: us) : xs.filterMap Rule.commentDiagnostic? = [] := by
  obtain ⟨r, mode, hreads, hus⟩ := Reader.exists_reads (r := .ofText text) h
  refine comments_eq_nil (hreads.closed fun hnil => ?_)
  rw [Reader.tokens_nil mode hnil] at hus
  cases hus

/-- Trivia before a statement of a text hold no open comment. -/
theorem Rule.Reaches.comments_eq_nil {text : Text} {rule : StatementRule} {j : Input} {pre : Output}
    {post : Input → Output} {v us : List Token} {t : Token}
    (h : Rule.Reaches (.start text) rule j pre post) (hn : j.Next v t us) :
    v.filterMap Rule.commentDiagnostic? = [] := by
  obtain ⟨xs, g, ht, _⟩ := h.trace (Input.proper_ofText ..)
  have htokens : lex text = (xs ++ v) ++ t :: us := by
    rw [← Input.tokens_ofText_zero text 0, List.append_assoc, ← hn.tokens]
    exact ht.tokens_eq
  exact (List.append_eq_nil_iff.1 (List.filterMap_append ▸ comments_of_lex htokens)).2

namespace Cursor.Placed

variable {c : Cursor} {f : List Skeleton} {text : Text} {A M B : List Token} {r₁ r₂ : Reader}
  {m₁ m₂ : Mode}

/-- The leaf before a statement that starts a line is not part of a line. -/
theorem startsStatement_kind (hs : c.Site text A M B r₁ r₂ m₁ m₂)
    (h : c.Placed f text.byteSize) (hstart : Parse.startsStatement c = true) :
    ∀ t ∈ A.reverse.find? fun t => !t.kind.isTrivia,
      Grammar.statementEnd.contains t.kind = true := by
  intro t ht
  rcases find?_of_forall₂ (fun n t hl => congrArg not hl.isTrivia) (hs.holdsBefore h.fitted.2) with
    ⟨_, h₂⟩ | ⟨n, t', h₁, h₂, hl⟩
  · rw [h₂] at ht
    cases ht
  · rw [h₂] at ht
    cases ht
    have hn : (n.kind == .newline || n.kind.isSectionKeyword) = true := by
      rwa [Parse.startsStatement, prevSignificant?, h₁] at hstart
    rw [Bool.or_eq_true, beq_iff_eq] at hn
    rw [← hl.kind, Grammar.statementEnd_lexedAs]
    exact Grammar.contains_statementEnd.2 (hn.imp_right .inr)

/-- What is reported as missing right at a statement stands at the last token before it. -/
theorem takenEnd_eq (hs : c.Site text A M B r₁ r₂ m₁ m₂) (h : c.Placed f text.byteSize)
    {xs v : List Token} {g : List Skeleton} {ds : List Diagnostic} {j : Input}
    (ht : Trace (fun _ => True) 0 (.start text) xs g ds j) (hA : A = xs ++ v) (hv : AllTrivia v) :
    (c.prevSignificant?.map fun n => n.span.stop).getD 0 = j.takenEnd := by
  have hfind : (A.reverse.find? fun t => !t.kind.isTrivia) =
      xs.reverse.find? fun t => !t.kind.isTrivia := by
    rw [hA, List.reverse_append, List.find?_append, List.find?_eq_none.2, Option.none_or]
    intro t ht
    simp [hv t (List.mem_reverse.1 ht)]
  rcases find?_of_forall₂ (fun n t hl => congrArg not hl.isTrivia) (hs.holdsBefore h.fitted.2) with
    ⟨h₁, h₂⟩ | ⟨n, t, h₁, h₂, hl⟩
  · rw [prevSignificant?, h₁]
    rw [hfind] at h₂
    rcases ht.ends with ⟨_, rfl⟩ | ⟨ys, t, rfl, htriv, _⟩
    · rfl
    · rw [List.reverse_append, List.reverse_singleton, List.singleton_append, List.find?_cons_of_pos
        (by simp [htriv])] at h₂
      cases h₂
  · rw [prevSignificant?, h₁]
    rw [hfind] at h₂
    rcases ht.ends with ⟨rfl, _⟩ | ⟨ys, u, rfl, htriv, hend, _⟩
    · cases h₂
    · rw [List.reverse_append, List.reverse_singleton, List.singleton_append, List.find?_cons_of_pos
        (by simp [htriv]), Option.some.injEq] at h₂
      subst h₂
      rw [hend, ← hl.span]
      rfl

/-- Before a statement that starts a line there are no entries in its round: they would hold the
significant token before it, which does not end a line. -/
theorem absurd_entry_before (hs : c.Site text A M B r₁ r₂ m₁ m₂) (h : c.Placed f text.byteSize)
    (hstart : Parse.startsStatement c = true) {j : Input} {pre : Output} {post : Input → Output}
    {k : Kind} {cs m g g₂ : List Skeleton} {xs v us : List Token} {t : Token} {ds : List Diagnostic}
    (hseat : Rule.Seat (.start text) .sos j pre post (Skeleton.trivia v ++ .node k cs :: m)
      c.focus.skeleton g₂)
    (ht : Trace (fun _ => True) 0 (.start text) xs g ds j) (hn : j.Next v t us)
    (hlength : A.length = xs.length +
      (leavesOf (Skeleton.eventsAll (Skeleton.trivia v ++ .node k cs :: m))).length) : False := by
  have hspec := Rule.spec_statement (K := fun k => Grammar.statementEnd.contains k = false)
    inline_statementEnd .sos (fun hne => absurd rfl hne) j hseat.proper (Nat.le_refl _) hseat.inside
  obtain ⟨zs, g', hz, hz'⟩ := hspec.trace
  obtain rfl := Skeleton.eventsAll_injective (hz'.symm.trans hseat.forest)
  have hzs := hz.shown.flip
  rw [Skeleton.eventsAll_append, leavesOf_append] at hzs
  obtain ⟨z₁, z₂, rfl, hz₁, _⟩ := Parallel.forall₂_append_left hzs
  have hlex : lex text = (xs ++ z₁) ++ (z₂ ++ (Rule.statement .sos j).rest.tokens) := by
    rw [← show (Input.start text).tokens = lex text from Input.tokens_ofText_zero text 0,
      ht.tokens_eq, hz.tokens_eq]
    simp only [List.append_assoc]
  obtain ⟨hA, _⟩ := List.append_inj (hs.tokens_eq.symm.trans hlex)
    (by rw [hlength, List.length_append, hz₁.length_eq])
  -- the entries take more than the trivia before them, so the token behind these as well
  have htz : t ∈ z₁ := by
    have hproper := hz.forest_proper hseat.proper (.node k cs) (by simp)
    have hpos := List.length_pos_of_ne_nil hproper.leaves_ne
    have hlen := hz₁.length_eq
    rw [Skeleton.eventsAll_append, leavesOf_append, Skeleton.leavesOf_trivia, Skeleton.eventsAll,
      leavesOf_append] at hlen
    simp only [List.length_append, List.length_map] at hlen
    have heq : z₁ ++ (z₂ ++ (Rule.statement .sos j).rest.tokens) = v ++ t :: us := by
      rw [← List.append_assoc, ← hz.tokens_eq, hn.tokens]
    rcases append_eq_append_cons heq with ⟨m', hm', _⟩ | ⟨m', _, hm'⟩
    · rw [hm']
      simp
    · rw [hm', List.length_append] at hlen
      omega
  obtain ⟨u, hu⟩ : ∃ u, z₁.reverse.find? (fun t => !t.kind.isTrivia) = some u := by
    rw [← Option.isSome_iff_exists, List.find?_isSome]
    exact ⟨t, List.mem_reverse.2 htz, by simp [hn.significant]⟩
  have huz : u ∈ z₁ := List.mem_reverse.1 (List.mem_of_find?_eq_some hu)
  have husig : u.kind.isTrivia = false := by simpa using List.find?_some hu
  have hend := startsStatement_kind hs h hstart u (by
    rw [hA, List.reverse_append, List.find?_append, hu]
    rfl)
  rw [hz.kinds u (List.mem_append_left _ huz) husig] at hend
  cases hend

/-- **A statement is the first node of a round**, unless it follows another entry on its line. -/
theorem exists_round (h : c.Placed f text.byteSize) (hs : c.Site text A M B r₁ r₂ m₁ m₂)
    (he : (Rule.document (.start text)).output.events =
      .start .document :: (Skeleton.eventsAll f ++ [.finish]))
    (hout : Parse.isOuterStatement c = true) {rule : StatementRule}
    (hrule : Parse.ruleAt? c = some rule)
    (hstart : rule = .sos → Parse.startsStatement c = true) :
    ∃ j pre post v t us more, c.Round (.start text) rule j pre post A v t us more := by
  have hi : (Input.start text).Proper := Input.proper_ofText text 0 0 .statementStart
  have hlex : (Input.start text).tokens = lex text := Input.tokens_ofText_zero text 0
  obtain ⟨rule', hrule', j, pre, post, g₁, g₂, hseat, hbefore⟩ := h.seat hi he hout
  obtain rfl : rule = rule' := Option.some.inj (hrule.symm.trans hrule')
  obtain ⟨v, t, us, hn, _⟩ := hseat.proper.exists_next (Rule.ne_eof_of_not_at hseat.inside)
  obtain ⟨xs, g, ht, hg⟩ := hseat.reaches.trace hi
  have htokens : lex text = (xs ++ v) ++ t :: us := by
    rw [← hlex, ht.tokens_eq, hn.tokens, List.append_assoc]
  have hv := hseat.reaches.comments_eq_nil hn
  obtain ⟨more, hopens, hsingle⟩ := Rule.statement_opens hseat.proper hn hv rule hseat.inside
  obtain ⟨k, cs, hk, hforest⟩ := hopens.forest
  have hnode : c.focus.kind.isNode = true := by
    rw [Parse.isOuterStatement, Bool.and_eq_true] at hout
    exact Kind.isNode_of_isStatement hout.1
  have hsplit := Skeleton.eventsAll_injective (hforest.symm.trans hseat.forest)
  rw [Node.skeleton_of_isNode hnode] at hsplit
  -- the tokens before the statement: those before the round, and those of the round before it
  have hshown := hs.shownBefore
  rw [hbefore, ← List.singleton_append, leavesOf_append, leavesOf_append, hg] at hshown
  have hlength : A.length = xs.length + (leavesOf (Skeleton.eventsAll g₁)).length := by
    rw [hshown.length_eq, List.length_append, List.length_append, ht.shown.length_eq]
    exact Nat.zero_add _
  rcases Rule.trivia_append_cases hsplit with ⟨rfl, hmore⟩ | ⟨m, rfl, hmore⟩
  · rw [Skeleton.leavesOf_trivia, List.length_map] at hlength
    obtain ⟨hA, hM⟩ := List.append_inj (hs.tokens_eq.symm.trans htokens)
      (by rw [hlength, List.length_append])
    refine ⟨j, pre, post, v, t, us, more, hseat.reaches, hseat.proper, hseat.inside, hn, ?_,
      takenEnd_eq hs h ht hA hn.trivia, ?_, hopens.advance, ?_, hsingle⟩
    · rw [hlex, htokens, hA]
    · rw [hbefore, Skeleton.eventsAll_trivia]
      rfl
    · have hevents := hseat.forest
      rw [hopens.advance, Output.events_append, Skeleton.eventsAll_append, Skeleton.eventsAll_trivia]
        at hevents
      rw [hmore]
      exact List.append_cancel_left hevents
  · obtain rfl : rule = .sos := by
      by_contra hne
      rw [hsingle hne] at hmore
      simp at hmore
    exact (absurd_entry_before hs h (hstart rfl) hseat ht hn hlength).elim

end Cursor.Placed

end LpFormat
