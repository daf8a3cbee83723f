import LpFormat.Proofs.Parsing.Layout
import LpFormat.Proofs.Parsing.Productions

/-!
# Shapes of sections and documents

The loops of a document against the schema and the productions.

* `every`: words whose letters all have a property;
* `Rule.runs_body`, `Rule.runs_endMark`: lines with statements, and what follows `End`;
* `Skeleton.lastKeyword`, `Rule.sections_shows`: the last section of a forest and its keyword;
* `Skeleton.unclosed`, **`Rule.document_reading`**: a whole document.
-/

namespace LpFormat

open Computability

/-- The words whose letters all have a property. -/
def every {α : Type} (p : α → Prop) : Language α := {w | ∀ a ∈ w, p a}

section Every

variable {α : Type} {p q : α → Prop} {l m : Language α}

theorem single_le_every (h : ∀ a, q a → p a) : single q ≤ every p := by
  rintro w ⟨a, ha, rfl⟩ b hb
  rw [List.mem_singleton.1 hb]
  exact h a ha

theorem mul_le_every (hl : l ≤ every p) (hm : m ≤ every p) : l * m ≤ every p := by
  rintro w ⟨u, hu, v, hv, rfl⟩
  exact List.forall_mem_append.2 ⟨hl hu, hm hv⟩

theorem kstar_le_every (h : l ≤ every p) : l∗ ≤ every p := by
  intro w hw a ha
  obtain ⟨ws, rfl, hws⟩ := Language.mem_kstar.1 hw
  obtain ⟨u, hu, hau⟩ := List.mem_flatten.1 ha
  exact h (hws u hu) a hau

end Every

namespace Rule

/-! ## Bodies -/

/-- What may follow a statement in a body. -/
def afterStatement (l : Language Token) : Language Token :=
  (Production.one .newline * (Production.one .newline)∗ * l)∗ * (Production.one .newline)∗

section AfterStatement

variable {l : Language Token}

theorem one_le_afterStatement : 1 ≤ afterStatement l :=
  (one_mul 1).ge.trans (mul_le_mul' one_le_kstar one_le_kstar)

theorem statement_mul_le : l * afterStatement l ≤ Production.body l := by
  rw [afterStatement, ← mul_assoc]
  exact le_optional.trans ((one_mul _).ge.trans (mul_le_mul' one_le_kstar le_rfl))

theorem newline_mul_body_le : Production.one .newline * Production.body l ≤ Production.body l := by
  rw [Production.body, ← mul_assoc]
  exact mul_le_mul' mul_kstar_le_kstar le_rfl

theorem newline_mul_le_afterStatement :
    Production.one .newline * Production.body l ≤ afterStatement l := by
  rw [Production.body, optional, mul_add, mul_one, mul_add]
  refine add_le ?_ ?_
  · exact mul_kstar_le_kstar.trans ((one_mul _).ge.trans (mul_le_mul' one_le_kstar le_rfl))
  · rw [← mul_assoc, ← mul_assoc, ← mul_assoc, afterStatement]
    exact mul_le_mul' mul_kstar_le_kstar le_rfl

end AfterStatement

/-- The two stages of a body: anywhere, and right after a statement. -/
def bodyStage (anywhere : Bool) (i : Input) : Prop := anywhere = true ∨ At Grammar.statementEnd i

/-- What may follow in a stage of a body. -/
def bodyRest (rule : StatementRule) : Bool → Language Token
  | true => Production.body (Production.statement rule)
  | false => afterStatement (Production.statement rule)

theorem one_le_bodyRest (rule : StatementRule) (x : Bool) : 1 ≤ bodyRest rule x := by
  cases x with
  | true => exact (one_mul 1).ge.trans (mul_le_mul' one_le_kstar one_le_optional)
  | false => exact one_le_afterStatement

theorem newline_mul_bodyRest (rule : StatementRule) (x : Bool) :
    Production.one .newline * bodyRest rule true ≤ bodyRest rule x := by
  cases x with
  | true => exact newline_mul_body_le
  | false => exact newline_mul_le_afterStatement

theorem runs_body {P : Input → Prop} (rule : StatementRule) :
    Runs P (body rule) (fun _ => Schema.lines (Schema.statements rule))
      (Production.body (Production.statement rule)) fun _ => AtBorder := by
  have hloop := Runs.loop (A := Schema.lines (Schema.statements rule)) (Q := AtBorder)
    (I := bodyStage) (L := bodyRest rule) (progress_bodyStep rule) ?_ true
  · exact hloop.weaken (fun _ _ => .inl rfl) (fun _ => (kstar_idem _).le) le_rfl fun _ _ h => h
  · intro x i hi hx
    rcases border_or_inside i with hborder | hn | hend
    · exact .inr ⟨bodyStep_border rule hborder, hborder, one_le_bodyRest rule x⟩
    · obtain ⟨hs, _⟩ := runs_bump (A := Schema.one .newline) (G := Production.one .newline)
        (P := fun i => (i.peek 0).kind = .newline)
        (fun i h => takeable_kind Kind.noConfusion Kind.noConfusion h) i hi hn
      rw [bodyStep_newline rule hn]
      refine .inl ⟨rfl, true, _, hs.mono ?_ le_rfl, .inl rfl, newline_mul_bodyRest rule x⟩
      exact (le_self_add.trans le_self_add).trans le_kstar
    · obtain ⟨hs, hrest⟩ := runs_statement rule i hi hend
      rw [bodyStep_statement rule hend]
      -- a statement does not follow another on one line
      obtain rfl : x = true := hx.resolve_right hend
      exact .inl ⟨rfl, false, _, hs, .inr hrest, statement_mul_le⟩

/-! ## After the sections -/

theorem runs_afterEnd {P : Input → Prop} :
    Runs P afterEnd (fun _ => (Schema.one .newline + Schema.one .errorNode)∗)
      (Production.one .newline)∗ fun _ i => (i.peek 0).kind = .eof := by
  have hloop := Runs.repeatWhile (A := (Schema.one .newline + Schema.one .errorNode)∗)
    (G := Production.one .newline) (I := fun _ => True) (Q := fun i => (i.peek 0).kind = .eof)
    progress_afterEndStep ?_
  · exact hloop.weaken (fun _ _ => trivial) (fun _ => (kstar_idem _).le) le_rfl fun _ _ h => h
  · intro i hi _
    have hnewline : Runs (fun i => (i.peek 0).kind = .newline) bump
        (fun _ => (Schema.one .newline + Schema.one .errorNode)∗) (Production.one .newline)
        fun _ _ => True :=
      (runs_bump fun i h => takeable_kind Kind.noConfusion Kind.noConfusion h).le
        (fun _ => le_self_add.trans le_kstar) le_rfl
    refine Runs.round_look (g := fun i => (i.peek 0).kind) (Runs.round_ite
      (fun he => Runs.round_stop he) fun he => Runs.round_ite (fun hn => Runs.round_go hnewline hi hn)
        fun _ => Runs.round_ite (fun _ => ?_) fun _ => ?_)
    · refine Runs.round_go ((Runs.skipToken (P := fun i => (i.peek 0).kind ≠ .eof) _ fun i h => h).le
        (fun _ => ?_) zero_le) hi he
      exact le_add_self.trans le_kstar
    · refine Runs.round_go ((Runs.recover (P := fun _ => True) _).weaken (fun _ h => h) (fun _ => ?_)
        zero_le fun _ _ _ => trivial) hi trivial
      exact add_le one_le_kstar (le_add_self.trans le_kstar)

/-- `End` and what follows it. -/
theorem runs_endMark :
    Runs (fun i => (i.peek 0).kind = .endKw) endMark
      (fun _ => Schema.one .endNode * (Schema.one .newline + Schema.one .errorNode)∗)
      (Production.one .endKw * (Production.one .newline)∗) fun _ i => (i.peek 0).kind = .eof := by
  refine .ifKind (.pre ?_ fun i h => h.1) (.vacuous fun i h => h.2 h.1)
  refine (Runs.node (fun i j hp _ h => ?_) (fun i h => ?_) rfl Kind.noConfusion le_rfl
    (runs_bump (A := Schema.one .endKw) (G := Production.one .endKw) fun i h =>
      takeable_kind Kind.noConfusion Kind.noConfusion h)).bind fun _ => runs_afterEnd
  · rwa [hp 0]
  · rw [h]
    exact Kind.noConfusion

theorem endMark_run {i : Input} (h : (i.peek 0).kind ≠ .endKw) : endMark i = ⟨(), {}, i⟩ := by
  change (if (i.peek 0).kind = .endKw then node .endNode bump >>= fun _ => afterEnd
    else pure () : Rule Unit) i = _
  rw [if_neg h]
  rfl

end Rule

/-! ## Sections -/

namespace Skeleton

/-- Where a section keyword is. -/
def keyword? : Skeleton → Option Span
  | leaf kind span => if kind.isSectionKeyword then some span else none
  | node _ _ => none

/-- Where the keyword in a node is. -/
def opening? : Skeleton → Option Span
  | node _ children => children.findSome? keyword?
  | leaf _ _ => none

/-- Where the keyword of the last section of a forest is. -/
def lastKeyword (f : List Skeleton) : List (Option Span) :=
  (f.filter fun s => s.kind == .sectionNode).getLast?.toList.map opening?

theorem mem_kinds {f : List Skeleton} {s : Skeleton} (hs : s ∈ f) (hk : s.kind.isTrivia = false) :
    s.kind ∈ kinds f :=
  List.mem_filter.2 ⟨List.mem_map_of_mem hs, by simp [hk]⟩

theorem filter_sections {f : List Skeleton} (h : .sectionNode ∉ kinds f) :
    (f.filter fun s => s.kind == .sectionNode) = [] := by
  refine List.filter_eq_nil_iff.2 fun s hs hk => h ?_
  have hk' : s.kind = .sectionNode := eq_of_beq hk
  exact hk' ▸ mem_kinds hs (hk' ▸ rfl)

theorem lastKeyword_append_left {f : List Skeleton} (g : List Skeleton)
    (h : .sectionNode ∉ kinds f) : lastKeyword (f ++ g) = lastKeyword g := by
  rw [lastKeyword, List.filter_append, filter_sections h]
  rfl

theorem lastKeyword_append_right (f : List Skeleton) {g : List Skeleton}
    (h : .sectionNode ∉ kinds g) : lastKeyword (f ++ g) = lastKeyword f := by
  rw [lastKeyword, List.filter_append, filter_sections h, List.append_nil]
  rfl

/-- The last section counts. -/
theorem lastKeyword_append (f : List Skeleton) {g : List Skeleton} {span : Option Span}
    (h : lastKeyword g = [span]) : lastKeyword (f ++ g) = [span] := by
  rw [lastKeyword, List.filter_append, ← h]
  cases hg : (g.filter fun s => s.kind == .sectionNode).getLast? with
  | none =>
    rw [lastKeyword, hg] at h
    cases h
  | some s => rw [lastKeyword, hg, List.getLast?_append, hg]; rfl

end Skeleton

namespace Rule

theorem mem_sections_of_section? {k : Kind} {s : SectionRule} (h : Grammar.section? k = some s) :
    s ∈ Grammar.sections ∧ s.keyword = k := by
  rw [Grammar.section?] at h
  have hkeyword := List.find?_some h
  exact ⟨List.mem_of_find?_eq_some h, eq_of_beq hkeyword⟩

/-- A section has the children that the schema asks for. -/
theorem section_le_children {s : SectionRule} (h : s ∈ Grammar.sections) :
    Schema.one s.keyword * Schema.lines (Schema.statements s.rule) ≤
      Schema.children .sectionNode := by
  have hsum : ∀ {a b c : Language Kind}, a ≤ b → a ≤ b + c := fun h => h.trans le_self_add
  simp only [Grammar.sections, List.mem_cons, List.not_mem_nil, or_false] at h
  rcases h with rfl | rfl | rfl | rfl | rfl | rfl | rfl | rfl | rfl
  · exact hsum (hsum (hsum (hsum (mul_le_mul' le_self_add le_rfl))))
  · exact hsum (hsum (hsum (hsum (mul_le_mul' le_add_self le_rfl))))
  · exact hsum (hsum (hsum le_add_self))
  · exact hsum (hsum le_add_self)
  · exact hsum (le_add_self.trans' (mul_le_mul' (hsum (hsum le_self_add)) le_rfl))
  · exact hsum (le_add_self.trans' (mul_le_mul' (hsum (hsum le_add_self)) le_rfl))
  · exact hsum (le_add_self.trans' (mul_le_mul' (hsum le_add_self) le_rfl))
  · exact hsum (le_add_self.trans' (mul_le_mul' le_add_self le_rfl))
  · exact le_add_self

/-- One section. -/
theorem sectionBlock_reading {i : Input} {s : SectionRule} (hi : i.Proper) (h : AtSection s i) :
    ∃ v t us g xs, i.Next v t us ∧ t.kind.isSectionKeyword = true ∧
      Reading i (sectionBlock s i).output (sectionBlock s i).rest
        (Skeleton.trivia v ++ [.node .sectionNode (.leaf t.kind t.span :: g)]) xs ∧
      ((sectionBlock s i).output.diagnostics.filter Diagnostic.isSyntactic = [] →
        significant xs ∈ Production.sectionBlock) ∧
      spansOf .unterminatedSection (sectionBlock s i).output.diagnostics = [] ∧
      AtBorder (sectionBlock s i).rest := by
  obtain ⟨hmem, hkeyword⟩ := mem_sections_of_section? h
  obtain ⟨hsec, _⟩ := Grammar.isSectionKeyword_of_section? h
  have hne : ∀ k : Kind, k.isSectionKeyword = false → (i.peek 0).kind ≠ k := by
    rintro k hk rfl
    rw [hk] at hsec
    cases hsec
  obtain ⟨v, t, us, hn, hk⟩ := hi.exists_next (hne .eof rfl)
  have hafter : (i.after t us).Proper :=
    hi.of_suffix rfl ⟨v ++ [t], by simp [hn.tokens, Input.after]⟩
  obtain ⟨⟨g, xs, hr, hkinds, hclean, hopen⟩, hborder⟩ :=
    runs_body (P := fun _ => True) s.rule _ hafter trivial
  have hlead := Reading.trivia hn.tokens hn.trivia
  have htoken := @Reading.token (i.advance (t :: us)) t us t.kind rfl (hk ▸ hne .invalidNumber rfl)
  have hchildren : Skeleton.kinds ([.leaf t.kind t.span] ++ g) ∈ Schema.children .sectionNode := by
    rw [Skeleton.kinds_append, Skeleton.kinds_singleton (s := .leaf t.kind t.span) hn.significant]
    exact section_le_children hmem
      (Language.append_mem_mul (mem_single.2 (hk.trans hkeyword.symm)) hkinds)
  rw [sectionBlock_run s hi hn]
  refine ⟨v, t, us, g, _, hn, hk ▸ hsec, hlead.append ((htoken.append hr).node Kind.noConfusion hchildren),
    fun hd => ?_, ?_, hborder⟩
  · rw [Output.diagnostics_append, List.filter_append, List.append_eq_nil_iff] at hd
    rw [significant_append, significant, Input.filter_trivia hn.trivia, List.nil_append,
      significant_append, show significant [t] = [t] from Input.filter_significant t [] hn.significant]
    exact ⟨s, hmem,
      Language.append_mem_mul (mem_single.2 (hk.trans hkeyword.symm)) (hclean hd.2)⟩
  · rw [Output.diagnostics_append, spansOf_append]
    exact List.append_eq_nil_iff.2 ⟨spansOf_comments ProblemKind.noConfusion problem_comment, hopen⟩

theorem reading_closing (s : SectionRule) (keyword : Token) (j : Input) :
    Reading j (closing s keyword j) j [] [] := by
  rw [closing]
  split_ifs
  · refine ⟨rfl, rfl, rfl, List.forall_mem_nil _, rfl, rfl, ?_⟩
    change ∀ d ∈ [_], _
    rw [List.forall_mem_singleton]
    exact fun h => ProblemKind.noConfusion h
  · exact .nil j

theorem spansOf_closing (s : SectionRule) (keyword : Token) (j : Input) :
    spansOf .unterminatedSection (closing s keyword j).diagnostics =
      if (j.peek 0).kind = .eof then [keyword.span] else [] := by
  rw [closing]
  split_ifs <;> rfl

/-- The sections of a document, where there is one: the last one is open if the text ends. -/
theorem sections_shows {i : Input} {s : SectionRule} (hi : i.Proper) (h : AtSection s i) :
    ∃ f xs keyword, Reading i (sections i).output (sections i).rest f xs ∧
      Skeleton.kinds f ∈ (Schema.one .sectionNode)∗ ∧
      ((sections i).output.diagnostics.filter Diagnostic.isSyntactic = [] →
        significant xs ∈ Production.sectionBlock * Production.sectionBlock∗) ∧
      Skeleton.lastKeyword f = [some keyword] ∧
      spansOf .unterminatedSection (sections i).output.diagnostics =
        (if ((sections i).rest.peek 0).kind = .eof then [keyword] else []) ∧
      AtBorder (sections i).rest ∧ Grammar.section? ((sections i).rest.peek 0).kind = none := by
  rw [sections_eq]
  induction hlen : i.tokens.length using Nat.strongRecOn generalizing i s with
  | ind len ih =>
    obtain ⟨v, t, us, g, xs, hn, hkeyword, hr, hclean, hopen, hborder⟩ := sectionBlock_reading hi h
    have hstep := sectionsStep_some h
    have hlt := progress_sectionsStep i hi (by rw [hstep])
    have hkinds : Skeleton.kinds (Skeleton.trivia v ++
        [.node .sectionNode (.leaf t.kind t.span :: g)]) = [.sectionNode] := by
      rw [Skeleton.kinds_append, Skeleton.kinds_trivia hn.trivia]
      rfl
    have hlast : Skeleton.lastKeyword (Skeleton.trivia v ++
        [.node .sectionNode (.leaf t.kind t.span :: g)]) = [some t.span] := by
      rw [Skeleton.lastKeyword_append_left]
      · change [List.findSome? Skeleton.keyword? (.leaf t.kind t.span :: g)] = _
        rw [List.findSome?_cons_of_isSome] <;> simp [Skeleton.keyword?, hkeyword]
      · rw [Skeleton.kinds_trivia hn.trivia]
        exact List.not_mem_nil
    have hfirst := hr.append (reading_closing s (i.peek 0) (sectionBlock s i).rest)
    rw [List.append_nil, List.append_nil] at hfirst
    rw [repeatWhile_pos (by rw [hstep]) hlt]
    rw [hstep] at hlt ⊢
    cases hnext : Grammar.section? ((sectionBlock s i).rest.peek 0).kind with
    | none =>
      rw [repeatWhile_neg (by simp [sectionsStep_none hnext]), sectionsStep_none hnext]
      dsimp only
      rw [Output.append_empty]
      refine ⟨_, _, t.span, hfirst, ?_, fun hd => ?_, hlast, ?_, hborder, hnext⟩
      · rw [hkinds]
        exact le_kstar (a := Schema.one .sectionNode) (mem_single.2 rfl)
      · rw [Output.diagnostics_append, List.filter_append, List.append_eq_nil_iff] at hd
        have hle : Production.sectionBlock ≤ Production.sectionBlock * Production.sectionBlock∗ :=
          (mul_one _).ge.trans (mul_le_mul' le_rfl one_le_kstar)
        exact hle (hclean hd.1)
      · rw [Output.diagnostics_append, spansOf_append, hopen, spansOf_closing, hn.peek_zero,
          List.nil_append]
    | some s' =>
      obtain ⟨f, ys, keyword, hr', hkinds', hclean', hlast', hopen', hrest⟩ :=
        ih _ (hlen ▸ hlt) (hr.proper hi) hnext rfl
      -- the next section closes this one
      have hclosed : ((sectionBlock s i).rest.peek 0).kind ≠ .eof := by
        intro he
        rw [he] at hnext
        cases hnext
      refine ⟨_, _, keyword, hfirst.append hr', ?_, fun hd => ?_,
        Skeleton.lastKeyword_append _ hlast', ?_, hrest⟩
      · rw [Skeleton.kinds_append, hkinds]
        exact mul_kstar_le_kstar (a := Schema.one .sectionNode)
          (Language.append_mem_mul (mem_single.2 rfl) hkinds')
      · rw [Output.diagnostics_append, Output.diagnostics_append, List.filter_append,
          List.filter_append, List.append_eq_nil_iff, List.append_eq_nil_iff] at hd
        have hle : Production.sectionBlock * Production.sectionBlock∗ ≤ Production.sectionBlock∗ :=
          mul_kstar_le_kstar
        rw [significant_append]
        exact Language.append_mem_mul (hclean hd.1.1) (hle (hclean' hd.2))
      · rw [Output.diagnostics_append, Output.diagnostics_append, spansOf_append, spansOf_append,
          hopen, spansOf_closing, if_neg hclosed, hopen']
        rfl

theorem spansOf_eq_nil {k : ProblemKind} (hk : k ≠ .lexError) {ds : List Diagnostic}
    (h : ds.filter Diagnostic.isSyntactic = []) : spansOf k ds = [] := by
  rw [spansOf, List.map_eq_nil_iff, List.filter_eq_nil_iff]
  intro d hd hdk
  refine List.filter_eq_nil_iff.1 h d hd ?_
  rw [Diagnostic.isSyntactic_eq, eq_of_beq hdk]
  exact bne_iff_ne.2 hk

/-- The sections of a document, if there are any. -/
theorem sections_reading {i : Input} (hi : i.Proper) (hborder : AtBorder i) : ∃ f xs,
    Reading i (sections i).output (sections i).rest f xs ∧
      Skeleton.kinds f ∈ (Schema.one .sectionNode)∗ ∧
      ((sections i).output.diagnostics.filter Diagnostic.isSyntactic = [] →
        significant xs ∈ if ((sections i).rest.peek 0).kind = .eof then 1
          else optional (Production.sectionBlock * Production.sectionBlock∗)) ∧
      (spansOf .unterminatedSection (sections i).output.diagnostics).map some =
        (if ((sections i).rest.peek 0).kind = .eof then Skeleton.lastKeyword f else []) ∧
      AtBorder (sections i).rest ∧ Grammar.section? ((sections i).rest.peek 0).kind = none := by
  cases h : Grammar.section? (i.peek 0).kind with
  | none =>
    have hrun : sections i = ⟨(), {}, i⟩ := by
      rw [sections_eq, repeatWhile_neg (by simp [sectionsStep_none h]), sectionsStep_none h]
    rw [hrun]
    refine ⟨[], [], .nil i, one_le_kstar (a := Schema.one .sectionNode) rfl, fun _ => ?_, ?_,
      hborder, h⟩
    · split_ifs
      · rfl
      · exact one_le_optional rfl
    · split_ifs <;> rfl
  | some s =>
    obtain ⟨f, xs, keyword, hr, hkinds, hclean, hlast, hopen, hrest⟩ := sections_shows hi h
    refine ⟨f, xs, hr, hkinds, fun hd => ?_, ?_, hrest⟩
    swap
    · rw [hopen, hlast]
      split_ifs <;> rfl
    have hnone := spansOf_eq_nil (k := .unterminatedSection) ProblemKind.noConfusion hd
    rw [hopen] at hnone
    split_ifs with he
    · rw [if_pos he] at hnone
      cases hnone
    · exact le_optional (hclean hd)

end Rule

/-! ## Documents -/

/-- Where the keyword of the section that the end of a text leaves open is. -/
def Skeleton.unclosed (f : List Skeleton) : List (Option Span) :=
  if .endNode ∈ kinds f then [] else lastKeyword f

namespace Rule

theorem not_mem_kinds {f : List Skeleton} {l : Language Kind} (h : Skeleton.kinds f ∈ l) {k : Kind}
    (hl : l ≤ every (· ≠ k)) : k ∉ Skeleton.kinds f :=
  fun hk => hl h k hk rfl

theorem one_le_every {j k : Kind} (h : j ≠ k) : Schema.one j ≤ every (· ≠ k) :=
  single_le_every fun _ ha => ha ▸ h

/-- Lines before the first section hold neither sections nor an end. -/
theorem implicit_le_every {k : Kind} (h : k = .sectionNode ∨ k = .endNode) :
    Schema.lines (Schema.statements .implicit) ≤ every (· ≠ k) := by
  refine kstar_le_every (add_le (add_le ?_ ?_) (add_le ?_ ?_)) <;>
    exact one_le_every (by rcases h with rfl | rfl <;> exact Kind.noConfusion)

theorem implicit_le_document : Schema.lines (Schema.statements .implicit) ≤
    (Schema.one .newline + Schema.one .objective + Schema.one .constraint +
      Schema.one .errorNode)∗ := by
  refine kstar_mono (add_le (add_le ?_ le_add_self) (add_le ?_ ?_))
  · exact (le_self_add.trans le_self_add).trans le_self_add
  · exact (le_add_self.trans le_self_add).trans le_self_add
  · exact le_add_self.trans le_self_add

theorem ended_le_document :
    Production.body (Production.statement .implicit) *
        (optional (Production.sectionBlock * Production.sectionBlock∗) *
          (Production.one .endKw * (Production.one .newline)∗)) ≤ Production.document := by
  refine mul_le_mul' le_rfl (le_trans ?_ le_optional)
  rw [optional_mul, add_comm, ← mul_assoc (Production.sectionBlock * _)]

theorem clean_append {o p q : Output}
    (h : (o ++ (p ++ q)).diagnostics.filter Diagnostic.isSyntactic = []) :
    o.diagnostics.filter Diagnostic.isSyntactic = [] ∧
      p.diagnostics.filter Diagnostic.isSyntactic = [] ∧
      q.diagnostics.filter Diagnostic.isSyntactic = [] := by
  rwa [Output.diagnostics_append, Output.diagnostics_append, List.filter_append, List.filter_append,
    List.append_eq_nil_iff, List.append_eq_nil_iff] at h

/-- What a document holds but trivia at its end. -/
theorem contents_reading {i : Input} (hi : i.Proper) : ∃ f xs,
    Reading i (contents i).output (contents i).rest f xs ∧
      Skeleton.kinds f ∈ Schema.children .document ∧
      ((contents i).output.diagnostics.filter Diagnostic.isSyntactic = [] →
        significant xs ∈ Production.document) ∧
      (spansOf .unterminatedSection (contents i).output.diagnostics).map some =
        Skeleton.unclosed f := by
  obtain ⟨⟨f₀, xs₀, hr₀, hk₀, hx₀, hs₀⟩, hb₀⟩ :=
    runs_body (P := fun _ => True) .implicit i hi trivial
  obtain ⟨f₁, xs₁, hr₁, hk₁, hx₁, hs₁, hb₁, hnone⟩ := sections_reading (hr₀.proper hi) hb₀
  have hi₁ := hr₁.proper (hr₀.proper hi)
  have hrun : contents i = ⟨(), (body .implicit i).output ++
      ((sections (body .implicit i).rest).output ++
        (endMark (sections (body .implicit i).rest).rest).output),
      (endMark (sections (body .implicit i).rest).rest).rest⟩ := rfl
  rw [hrun]
  generalize sections (body .implicit i).rest = sec at *
  have hsec₀ : .sectionNode ∉ Skeleton.kinds f₀ := not_mem_kinds hk₀ (implicit_le_every (.inl rfl))
  have hend₀ : .endNode ∉ Skeleton.kinds f₀ := not_mem_kinds hk₀ (implicit_le_every (.inr rfl))
  have hend₁ : .endNode ∉ Skeleton.kinds f₁ :=
    not_mem_kinds hk₁ (kstar_le_every (one_le_every Kind.noConfusion))
  by_cases hend : (sec.rest.peek 0).kind = .endKw
  · obtain ⟨⟨f₂, xs₂, hr₂, hk₂, hx₂, hs₂⟩, _⟩ := runs_endMark _ hi₁ hend
    have hne : (sec.rest.peek 0).kind ≠ .eof := by
      rw [hend]
      exact Kind.noConfusion
    rw [if_neg hne] at hs₁ hx₁
    refine ⟨_, _, hr₀.append (hr₁.append hr₂), ?_, fun hd => ?_, ?_⟩
    · rw [Skeleton.kinds_append, Skeleton.kinds_append, ← List.append_assoc]
      exact Language.append_mem_mul (Language.append_mem_mul (implicit_le_document hk₀) hk₁)
        (le_optional hk₂)
    · obtain ⟨hd₀, hd₁, hd₂⟩ := clean_append hd
      rw [significant_append, significant_append]
      exact ended_le_document (Language.append_mem_mul (hx₀ hd₀)
        (Language.append_mem_mul (hx₁ hd₁) (hx₂ hd₂)))
    · have hmem : .endNode ∈ Skeleton.kinds (f₀ ++ (f₁ ++ f₂)) := by
        obtain ⟨u, ⟨a, rfl, rfl⟩, w, _, hw⟩ := hk₂
        rw [Skeleton.kinds_append, Skeleton.kinds_append, ← hw]
        simp
      rw [Skeleton.unclosed, if_pos hmem, Output.diagnostics_append, Output.diagnostics_append,
        spansOf_append, spansOf_append, hs₀, hs₂, List.nil_append, List.append_nil, hs₁]
  · have he : (sec.rest.peek 0).kind = .eof := by
      rcases hb₁ with h | h
      · exact h
      · exact absurd (Grammar.eq_endKw_of_section? h hnone) hend
    rw [if_pos he] at hs₁ hx₁
    rw [endMark_run hend]
    refine ⟨_, _, hr₀.append (hr₁.append (.nil _)), ?_, fun hd => ?_, ?_⟩
    · rw [List.append_nil, Skeleton.kinds_append]
      exact (mul_one _).ge.trans (mul_le_mul' le_rfl one_le_optional)
        (Language.append_mem_mul (implicit_le_document hk₀) hk₁)
    · obtain ⟨hd₀, hd₁, _⟩ := clean_append hd
      rw [List.append_nil, significant_append]
      exact mul_le_mul' le_rfl one_le_optional (Language.append_mem_mul (hx₀ hd₀) (hx₁ hd₁))
    · rw [Skeleton.unclosed, List.append_nil, if_neg, Output.diagnostics_append,
        Output.diagnostics_append, spansOf_append, spansOf_append, hs₀, List.nil_append,
        Skeleton.lastKeyword_append_left _ hsec₀, ← hs₁]
      · exact congrArg _ (List.append_nil _)
      · rw [Skeleton.kinds_append, List.mem_append, not_or]
        exact ⟨hend₀, hend₁⟩

/-- **A document** obeys the schema, all faults in it are accounted for, and it is a word of the
grammar if nothing is wrong. -/
theorem document_reading {i : Input} (hi : i.Proper) : ∃ f,
    Reading i (document i).output (document i).rest [.node .document f] i.tokens ∧
      ((document i).output.diagnostics.filter Diagnostic.isSyntactic = [] →
        significant i.tokens ∈ Production.document) ∧
      (spansOf .unterminatedSection (document i).output.diagnostics).map some =
        Skeleton.unclosed f := by
  obtain ⟨f, xs, hr, hk, hx, hs⟩ := contents_reading hi
  have hspec := spec_contents (P := fun _ => True) i hi (Nat.le_refl i.taken) trivial
  have hdone := (hspec.proper hi).done hspec.post
  have htrivia := Reading.trivia (List.append_nil (contents i).rest.tokens).symm hdone
  have hnone : Skeleton.kinds (Skeleton.trivia (contents i).rest.tokens) = [] :=
    Skeleton.kinds_trivia hdone
  have hkinds : Skeleton.kinds (f ++ Skeleton.trivia (contents i).rest.tokens) =
      Skeleton.kinds f := by
    rw [Skeleton.kinds_append, hnone, List.append_nil]
  rw [document_run hi]
  refine ⟨_, hr.tokens ▸ (hr.append htrivia).node Kind.noConfusion (hkinds ▸ hk), fun hd => ?_, ?_⟩
  · rw [Output.enclosed, Output.diagnostics_append, List.filter_append, List.append_eq_nil_iff] at hd
    rw [hr.tokens, significant_append, significant, significant, Input.filter_trivia hdone,
      List.append_nil]
    exact hx hd.1
  · rw [Skeleton.unclosed, hkinds, Skeleton.lastKeyword_append_right, ← Skeleton.unclosed, ← hs,
      Output.enclosed, Output.diagnostics_append, spansOf_append]
    · refine congrArg _ ((congrArg _ ?_).trans (List.append_nil _))
      exact spansOf_comments ProblemKind.noConfusion problem_comment
    · rw [hnone]
      exact List.not_mem_nil

end Rule

end LpFormat
