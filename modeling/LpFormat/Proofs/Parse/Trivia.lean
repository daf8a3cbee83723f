import LpFormat.Proofs.Parse.Arrange
import LpFormat.Proofs.Parse.Leaves
import LpFormat.Proofs.Tree.Prune

/-!
# Trivia and meaning

Blanks and comments change neither what a tree says nor what is wrong with it. Two texts with the
same words are both compared with one input that has these words and a gap before each of them; in
this input the end of a word and the start of the next never meet, as they may in one text and not
in the other.

* `Word`, `significantTokens`, `words`: the significant tokens of a text;
* `spread`, `place`: words with gaps, and where the bounds of a word are found in a text;
* `Token.InOrder`, `notAfter_place`: the order of diagnostics is the order of the words;
* `Rule.document_spread`: what is read in a text is read in its spread words;
* **`trivia_meaningless`**: texts of the same words say the same.
-/

namespace LpFormat

/-- The tokens of a text that are not trivia. -/
def significantTokens (text : Text) : List Token := (lex text).filter fun t => !t.kind.isTrivia

/-- A token without its place. -/
structure Word where
  kind : Kind
  text : Text
deriving DecidableEq, Inhabited

/-- The word at a token. -/
def Token.word (t : Token) : Word := ⟨t.kind, t.text⟩

/-- The words of a text, without blanks and comments. -/
def words (text : Text) : List Word := (significantTokens text).map Token.word

/-! ## Words with gaps -/

/-- Words as tokens with a gap before each; `k` words come before them. -/
def spread : Nat → List Word → List Token
  | _, [] => []
  | k, w :: ws => ⟨w.kind, ⟨2 * k + 1, 2 * k + 2⟩, 0, 0, w.text⟩ :: spread (k + 1) ws

/-- Where an offset among spread words is found among the tokens that they were made of. -/
def place (ts : List Token) : Nat → Nat
  | 0 => 0
  | n + 1 => if n % 2 = 0 then (ts.getD (n / 2) default).span.start
      else (ts.getD (n / 2) default).span.stop

theorem place_start (ts : List Token) (k : Nat) :
    place ts (2 * k + 1) = (ts.getD k default).span.start := by
  have h : 2 * k / 2 = k := by omega
  rw [place, if_pos (Nat.mul_mod_right 2 k), h]

theorem place_stop (ts : List Token) (k : Nat) :
    place ts (2 * k + 2) = (ts.getD k default).span.stop := by
  have h : (2 * k + 1) / 2 = k := by omega
  rw [place, if_neg (by omega), h]

theorem mem_spread {k : Nat} {ws : List Word} {t : Token} (h : t ∈ spread k ws) :
    ∃ l, l < ws.length ∧ t.span = ⟨2 * (k + l) + 1, 2 * (k + l) + 2⟩ ∧ ws[l]? = some t.word := by
  induction ws generalizing k with
  | nil => cases h
  | cons w ws ih =>
    rcases List.mem_cons.1 h with rfl | h
    · exact ⟨0, Nat.succ_pos _, rfl, rfl⟩
    · obtain ⟨l, hl, hspan, hw⟩ := ih h
      refine ⟨l + 1, Nat.succ_lt_succ hl, ?_, hw⟩
      rw [hspan, Nat.add_assoc, Nat.add_comm 1]

/-- The comparison of spread words with the tokens they were made of. -/
def spreading (ts : List Token) : Parallel := ⟨place ts, fun _ => False, [], []⟩

theorem spread_tokens (ts us : List Token) (vs : List Token) (h : ts = vs ++ us) :
    List.Forall₂ (spreading ts).Tokens (spread vs.length (us.map Token.word)) us := by
  induction us generalizing vs with
  | nil => exact .nil
  | cons u us ih =>
    refine .cons (.of_same rfl rfl ?_) ?_
    · have hget : ts.getD vs.length default = u := by simp [h]
      change u.span = ⟨place ts (2 * vs.length + 1), place ts (2 * vs.length + 2)⟩
      rw [place_start, place_stop, hget]
    · have := ih (vs ++ [u]) (by simp [h])
      rwa [List.length_append] at this

/-- The input whose tokens are spread words. -/
def Input.ofWords (ws : List Word) : Input := ⟨spread 0 ws, ⟨.eof, default, 0, 0, []⟩, 0, 0, none⟩

theorem Input.proper_ofWords {ws : List Word} (h : ∀ w ∈ ws, w.kind.isLexed = true) :
    (ofWords ws).Proper := by
  refine ⟨rfl, fun t ht => ?_, fun t ht => ?_⟩
  · obtain ⟨l, _, _, hw⟩ := mem_spread ht
    exact h t.word (List.mem_of_getElem? hw)
  · obtain ⟨l, _, hspan, _⟩ := mem_spread ht
    rw [hspan]
    exact Nat.lt_succ_self _

/-! ## The order of diagnostics -/

/-- Tokens that are not empty and follow one another. -/
structure Token.InOrder (ts : List Token) : Prop where
  solid : ∀ t ∈ ts, t.span.start < t.span.stop
  apart : ts.Pairwise fun t u => t.span.stop ≤ u.span.start

theorem inOrder_significant (text : Text) : Token.InOrder (significantTokens text) := by
  obtain ⟨r, mode, h, _⟩ := lex_reads text
  refine ⟨fun t ht => h.solid t (List.mem_of_mem_filter ht), List.Pairwise.filter _ ?_⟩
  exact List.pairwise_map.1 (adjoin_lex text).pairwise

/-- Moves a diagnostic from spread words to the tokens they were made of. -/
def Diagnostic.placed (ts : List Token) (d : Diagnostic) : Diagnostic :=
  { d with span := d.span.map (place ts) }

theorem Token.InOrder.stop_le {ts : List Token} (h : InOrder ts) {k l : Nat} (hkl : k < l)
    (hl : l < ts.length) :
    (ts.getD k default).span.stop ≤ (ts.getD l default).span.start := by
  rw [← List.getElem_eq_getD default (h := by omega), ← List.getElem_eq_getD default (h := hl)]
  exact List.pairwise_iff_getElem.1 h.apart k l (by omega) hl hkl

theorem Token.InOrder.start_lt {ts : List Token} (h : InOrder ts) {k : Nat} (hk : k < ts.length) :
    (ts.getD k default).span.start < (ts.getD k default).span.stop := by
  rw [← List.getElem_eq_getD default (h := hk)]
  exact h.solid _ (List.getElem_mem hk)

/-- A diagnostic at a spread word, or right after it. -/
def Diagnostic.AtWord (d : Diagnostic) (k : Nat) : Prop :=
  d.span = ⟨2 * k + 1, 2 * k + 2⟩ ∨ d.span = ⟨2 * k + 2, 2 * k + 2⟩

theorem Rule.atWord_of_mem {ws : List Word} (h : ∀ w ∈ ws, w.kind.isLexed = true) {d : Diagnostic}
    (hd : d ∈ (document (.ofWords ws)).output.diagnostics) : ∃ k, k < ws.length ∧ d.AtWord k := by
  obtain ⟨t, ht, hdt⟩ := located_of_proper (Input.proper_ofWords h) d hd
  obtain ⟨k, hk, hspan, _⟩ := mem_spread ht
  rw [Nat.zero_add] at hspan
  refine ⟨k, hk, ?_⟩
  rcases hdt with hdt | ⟨_, hdt⟩
  · exact .inl (hdt.trans hspan)
  · rw [hspan] at hdt
    exact .inr hdt

/-- The order of diagnostics is the order of the words they stand at. -/
theorem notAfter_place {ts : List Token} (hts : Token.InOrder ts) {d e : Diagnostic} {k l : Nat}
    (hk : k < ts.length) (hl : l < ts.length) (hd : d.AtWord k) (he : e.AtWord l) :
    Diagnostic.notAfter (d.placed ts) (e.placed ts) = Diagnostic.notAfter d e := by
  have hk' := hts.start_lt hk
  have hl' := hts.start_lt hl
  have hkl : k < l → _ := fun h => hts.stop_le h hl
  have hlk : l < k → _ := fun h => hts.stop_le h hk
  rw [Bool.eq_iff_iff, Diagnostic.notAfter_iff, Diagnostic.notAfter_iff]
  rcases Nat.lt_trichotomy k l with h | rfl | h
  · have := hkl h
    rcases hd with hd | hd <;> rcases he with he | he <;>
      simp only [Diagnostic.placed, hd, he, Span.map, place_start, place_stop] <;> omega
  · rcases hd with hd | hd <;> rcases he with he | he <;>
      simp only [Diagnostic.placed, hd, he, Span.map, place_start, place_stop, true_and,
        Nat.le_refl, or_true] <;> omega
  · have := hlk h
    rcases hd with hd | hd <;> rcases he with he | he <;>
      simp only [Diagnostic.placed, hd, he, Span.map, place_start, place_stop] <;> omega

/-! ## What is read in a text -/

theorem isLexed_words (text : Text) : ∀ w ∈ words text, w.kind.isLexed = true := by
  intro w hw
  obtain ⟨t, ht, rfl⟩ := List.mem_map.1 hw
  obtain ⟨r, mode, h, _⟩ := lex_reads text
  exact h.kind_isLexed t (List.mem_of_mem_filter ht)

/-- What is read in a text, trivia apart, is read in its spread words. -/
theorem Rule.document_spread (text : Text) :
    (spreading (significantTokens text)).Outputs (document (.ofWords (words text))).output
      (document (.start text)).output.bare := by
  have hi : (Input.start text).Proper := Input.proper_ofText text 0 0 .statementStart
  rw [← document_bare hi]
  refine document_alike rfl rfl ⟨⟨_, significantTokens text, (List.append_nil _).symm, ?_,
    spread_tokens _ _ [] rfl⟩, rfl, Input.proper_ofWords (isLexed_words text), hi.bare⟩
  have htokens : (Input.start text).tokens = lex text := Input.tokens_ofText_zero text 0
  rw [Input.bare, htokens]
  exact (List.append_nil _).symm

/-- The forest of a document without trivia. -/
theorem parse_pruned (text : Text) (options : Options) : ∃ ns,
    (parse text options).tree.text = text ∧
    (parse text options).tree.root = ⟨0, .document, ⟨0, text.byteSize⟩, ns⟩ ∧
    (Rule.document (.start text)).output.bare.events = .start .document ::
      (Skeleton.eventsAll (Skeleton.pruneAll (Node.skeletonAll ns)) ++ [.finish]) := by
  obtain ⟨f, ns, he, _, hns, htree⟩ := parse_built text options
  refine ⟨ns, by rw [htree], by rw [htree], ?_⟩
  rw [Skeleton.eventsAll_prune, Node.skeletonAll_eq_map, hns.skeletons, Output.bare, he,
    List.filter_cons, List.filter_append]
  rfl

/-- The text of a spread word, found by its place. -/
def textAt (ws : List Word) (span : Span) : Text := (ws.getD (span.start / 2) default).text

theorem slice_place (text : Text) {t : Token} (ht : t ∈ spread 0 (words text)) :
    text.slice (t.span.map (place (significantTokens text))) = textAt (words text) t.span := by
  obtain ⟨k, hk, hspan, _⟩ := mem_spread ht
  have hlen : k < (significantTokens text).length := by rwa [words, List.length_map] at hk
  have hhalf : (2 * k + 1) / 2 = k := by omega
  rw [Nat.zero_add] at hspan
  rw [hspan, Span.map, place_start, place_stop, textAt, hhalf,
    ← List.getElem_eq_getD default (h := hk), ← List.getElem_eq_getD default (h := hlen)]
  have hmem : (significantTokens text)[k] ∈ lex text :=
    List.mem_of_mem_filter (List.getElem_mem hlen)
  rw [slice_lex text _ hmem]
  simp only [words, List.getElem_map, Token.word]

/-- What a tree says is determined by the words of its text. -/
theorem gist_parse (text : Text) (options : Options) {g : List Skeleton}
    (he : (Rule.document (.ofWords (words text))).output.events =
      .start .document :: (Skeleton.eventsAll g ++ [.finish]))
    (hg : List.Forall₂ Trace.Leaf (spread 0 (words text)) (leavesOf (Skeleton.eventsAll g))) :
    (parse text options).tree.gist =
      [.node .document (Skeleton.gistAll (textAt (words text)) g)] := by
  obtain ⟨ns, htext, hroot, hevents⟩ := parse_pruned text options
  have hmoved : Skeleton.pruneAll (Node.skeletonAll ns) =
      Skeleton.moveAll (place (significantTokens text)) g := by
    have h := hevents.symm.trans (Rule.document_spread text).events
    rw [he, List.map_cons, List.map_append, List.cons.injEq] at h
    refine Skeleton.eventsAll_injective ?_
    rw [Skeleton.eventsAll_move]
    exact List.append_cancel_right h.2
  have hleaf : ∀ l ∈ leavesOf (Skeleton.eventsAll g),
      text.slice (l.2.map (place (significantTokens text))) = textAt (words text) l.2 := by
    intro l hl
    have hspan : l.2 ∈ (spread 0 (words text)).map Token.span := by
      rw [← leafSpans_of_forall₂ hg]
      exact List.mem_map_of_mem hl
    obtain ⟨t, ht, hlt⟩ := List.mem_map.1 hspan
    rw [← hlt]
    exact slice_place text ht
  rw [Tree.gist, htext, hroot, Node.gist_eq, Node.skeleton]
  change [Skeleton.gist _ (.node .document (Skeleton.pruneAll (Node.skeletonAll ns)))] = _
  rw [hmoved, Skeleton.gist, Skeleton.gistAll_move g hleaf]

/-- What is wrong with a text, comments apart, is determined by its words. -/
theorem diagnostics_parse (text : Text) :
    ((parse text {}).diagnostics.filter fun d => d.problem.kind != .lexError) =
      (Diagnostic.sorted (Rule.document (.ofWords (words text))).output.diagnostics).map
        (Diagnostic.placed (significantTokens text)) := by
  have hplaced : (Rule.document (.start text)).output.bare.diagnostics =
      (Rule.document (.ofWords (words text))).output.diagnostics.map
        (Diagnostic.placed (significantTokens text)) := by
    have h := (Rule.document_spread text).diagnostics
    generalize (Rule.document (.ofWords (words text))).output.diagnostics = ds at h ⊢
    generalize (Rule.document (.start text)).output.bare.diagnostics = es at h ⊢
    induction h with
    | nil => rfl
    | @cons d e ds es hd _ ih =>
      have hde : e = d.placed (significantTokens text) := by
        rw [Diagnostic.placed, ← hd.problem.resolve_right id]
        exact congrArg (Diagnostic.mk e.problem) hd.span
      rw [List.map_cons, ← ih, hde]
  rw [Diagnostic.map_sorted, ← hplaced]
  · rw [Output.bare, ← Diagnostic.filter_sorted]
    simp only [← Diagnostic.isSyntactic_eq]
    rfl
  · intro a ha b hb
    obtain ⟨k, hk, hak⟩ := Rule.atWord_of_mem (isLexed_words text) ha
    obtain ⟨l, hl, hbl⟩ := Rule.atWord_of_mem (isLexed_words text) hb
    rw [words, List.length_map] at hk hl
    exact notAfter_place (inOrder_significant text) hk hl hak hbl

/-- What is wrong with a text, unclosed comments apart: kinds and wordings, in reported order. -/
def Parse.problems (p : Parse) : List (ProblemKind × String) :=
  (p.diagnostics.filter fun d => d.problem.kind != .lexError).map fun d =>
    (d.problem.kind, d.problem.message)

/-- **Trivia have no meaning.** Texts that have the same words, whatever blanks and comments stand
between them, have trees that say the same and the same problems in the same order, unclosed comments
apart. -/
theorem trivia_meaningless {text text' : Text} (h : words text = words text') :
    (parse text {}).tree.gist = (parse text' {}).tree.gist ∧
      (parse text {}).problems = (parse text' {}).problems := by
  obtain ⟨g, he, _, hg⟩ := Rule.exists_forest (Input.proper_ofWords (isLexed_words text))
  refine ⟨?_, ?_⟩
  · rw [gist_parse text {} he hg, gist_parse text' {} (h ▸ he) (h ▸ hg), h]
  · rw [Parse.problems, Parse.problems, diagnostics_parse, diagnostics_parse, h, List.map_map,
      List.map_map]
    rfl

/-- The texts `x+` and `x +\\* *\\`, in which a term is missing, say the same. -/
theorem trivia_meaningless_sum :
    words ['x', '+'] = words ['x', ' ', '+', '\\', '*', ' ', '*', '\\'] ∧
      (parse ['x', '+'] {}).tree.gist =
        (parse ['x', ' ', '+', '\\', '*', ' ', '*', '\\'] {}).tree.gist ∧
      (parse ['x', '+'] {}).problems =
        (parse ['x', ' ', '+', '\\', '*', ' ', '*', '\\'] {}).problems := by
  have h : words ['x', '+'] = words ['x', ' ', '+', '\\', '*', ' ', '*', '\\'] := by
    rw [words, words, significantTokens, significantTokens, lex_eq_tokensWithin, lex_eq_tokensWithin]
    decide
  exact ⟨h, trivia_meaningless h⟩

end LpFormat
