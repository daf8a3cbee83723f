import LpFormat.Proofs.Parse.Faults
import LpFormat.Proofs.Parse.Nodes
import LpFormat.Proofs.Parsing.Alone
import LpFormat.Proofs.Parsing.Lines
import LpFormat.Proofs.Reparse.Statement
import LpFormat.Proofs.Token.Cut
import LpFormat.Proofs.Tree.Cursors

/-!
# Statements taken out of their text

A statement is written on its own behind the keyword of its section. The document made so has
nothing else, so what it reads behind the keyword is the statement.

* `Parse.heading`, `Parse.excerpt`: the text of a statement with its keyword;
* `Node.form`: kinds, numbers of children and spans of a node, counted from its start;
  `Node.Fitted.form_shift`: a node keeps its form when it is moved;
* `Heads`, `heads_heading`: the keyword decides the rule for what follows;
* `Skeleton.Hung`, `Skeleton.Hung.exists_cursor`: the tree of a document with one statement;
* `Rule.Leads`, **`Heads.exists_leads`**: the place where such a document reads it.
-/

namespace LpFormat

namespace Parse

/-- The keyword of the section around a node, on a line of its own; nothing before all sections. -/
def heading (p : Parse) (c : Cursor) : Text :=
  match c.parent? with
  | some above =>
    if above.focus.kind = .sectionNode then above.focus.keyword?.elim [] p.tree.textOf ++ ['\n']
    else []
  | none => []

/-- The text of a statement under the keyword of its section. -/
def excerpt (p : Parse) (c : Cursor) : Text := p.heading c ++ p.tree.textOf c.focus

end Parse

/-! ## Forms -/

/-- A span counted from a given offset on. -/
def Span.since (offset : Nat) (s : Span) : Span := ⟨s.start - offset, s.stop - offset⟩

/-- Kind, number of children and span of a node and of all below it, in order. Spans are counted
from the start of the node on. -/
def Node.form (n : Node) : List (Kind × Nat × Span) :=
  n.descendants.map fun m => (m.kind, m.children.length, m.span.since n.span.start)

namespace Node

theorem form_eq_map_shapes (n : Node) :
    n.form = n.shapes.map fun x => (x.1, x.2.2, x.2.1.since n.span.start) := by
  rw [form, shapes, List.map_map]
  rfl

theorem span_eq_of_shapes {m n : Node} (h : m.shapes = n.shapes) : m.span = n.span := by
  rw [shapes_eq, shapes_eq] at h
  exact congrArg (fun x => x.2.1) (List.cons.inj h).1

/-- The form is part of the shapes. -/
theorem form_eq_of_shapes {m n : Node} (h : m.shapes = n.shapes) : m.form = n.form := by
  rw [form_eq_map_shapes, form_eq_map_shapes, h, span_eq_of_shapes h]

theorem shapes_shift (δ : Int) (n : Node) :
    (n.shift δ).shapes = n.shapes.map fun x => (x.1, x.2.1.shift δ, x.2.2) := by
  obtain ⟨id, kind, span, children⟩ := n
  rw [shift_eq, shapes_eq, shapes_eq, List.map_cons, List.flatMap_map, List.map_flatMap,
    List.length_map]
  rw [List.flatMap_def, List.flatMap_def]
  congr 2
  exact List.map_congr_left fun c hc => shapes_shift δ c

theorem since_shift {s : Span} {offset : Nat} {δ : Int} (h : 0 ≤ (offset : Int) + δ)
    (hs : offset ≤ s.start) (hle : s.start ≤ s.stop) :
    (s.shift δ).since (shiftOffset offset δ) = s.since offset := by
  simp only [Span.since, Span.shift, shiftOffset, Span.mk.injEq]
  omega

/-- What is below a node that fits lies inside it. -/
theorem Fitted.span_of_mem_descendants {n m : Node} (h : n.Fitted) (hm : m ∈ n.descendants) :
    n.span.start ≤ m.span.start ∧ m.span.start ≤ m.span.stop ∧ m.span.stop ≤ n.span.stop := by
  induction h with
  | token _ hs =>
    rw [descendants_eq] at hm
    obtain rfl := List.mem_singleton.1 hm
    exact ⟨Nat.le_refl _, Nat.le_of_lt hs, Nat.le_refl _⟩
  | @node id kind span children _ _ hs _ ih =>
    rw [descendants_eq] at hm
    rcases List.mem_cons.1 hm with rfl | hm
    · exact ⟨Nat.le_refl _, hs.le, Nat.le_refl _⟩
    · obtain ⟨c, hc, hm⟩ := List.mem_flatMap.1 hm
      have hin := ih c hc hm
      have hadjoin := hs.mem (List.mem_map_of_mem hc)
      simp only
      omega

/-- A node keeps its form when it is moved. -/
theorem Fitted.form_shift {n : Node} (h : n.Fitted) {δ : Int} (hδ : 0 ≤ (n.span.start : Int) + δ) :
    (n.shift δ).form = n.form := by
  rw [form_eq_map_shapes, shapes_shift, List.map_map, shapes, List.map_map, span_shift, form]
  refine List.map_congr_left fun m hm => ?_
  obtain ⟨hstart, hle, _⟩ := h.span_of_mem_descendants hm
  have hsince := since_shift hδ hstart hle
  simp only [Function.comp_apply, Prod.mk.injEq, true_and]
  exact hsince

end Node

/-! ## Headings -/

/-- What stands before a statement that is read by a rule: nothing, or a line with a keyword. -/
inductive Heads : StatementRule → Text → Prop where
  | top : Heads .implicit []
  | inside {w rest : Text} {mode : Mode} {kind : Kind} {s : SectionRule} (hw : w ≠ [])
      (hscan : Lexeme.scan mode (w ++ rest) = (kind, w.length))
      (hs : Grammar.section? kind = some s) : Heads s.rule (w ++ ['\n'])

theorem heads_heading (text : Text) (options : Options) {c : Cursor} {rule : StatementRule}
    (hroot : c.root = (parse text options).tree.root) (hrule : Parse.ruleAt? c = some rule) :
    Heads rule ((parse text options).heading c) := by
  obtain ⟨focus, path⟩ := c
  cases path with
  | nil => cases hrule
  | cons k ks =>
    by_cases hk : k.kind = .sectionNode
    · have hk' : (k.plug focus).kind = .sectionNode := hk
      simp only [Parse.ruleAt?, Cursor.parent?, hk', if_true, Option.bind_eq_bind,
        Option.bind_some, Option.bind_eq_some_iff, Option.pure_def] at hrule
      obtain ⟨keyword, hhead, s, hs, heq⟩ := hrule
      cases heq
      obtain ⟨rest, hchildren⟩ := List.head?_eq_some_iff.1 hhead
      have hword := (Grammar.isSectionKeyword_of_section? hs).1
      have hkeyword : (k.plug focus).keyword? = some keyword := by
        rw [Node.keyword?, hchildren]
        exact List.find?_cons_of_pos hword
      have hmem : keyword ∈ (parse text options).tree.root.descendants := by
        rw [← hroot]
        refine @Cursor.mem_descendants_root ks (k.plug focus) keyword ?_
        rw [Node.descendants_eq, hchildren]
        refine List.mem_cons_of_mem _ (List.mem_flatMap.2 ⟨keyword, List.mem_cons_self, ?_⟩)
        rw [Node.descendants_eq]
        exact List.mem_cons_self
      obtain ⟨t, ht, hfor, htext⟩ :=
        parse_leaf text options hmem (Kind.isToken_of_isSectionKeyword hword)
      obtain ⟨mode, rest', hscan⟩ := exists_scan_of_mem_lex ht
      obtain ⟨r, m, hreads, _⟩ := lex_reads text
      have hkind : t.kind = keyword.kind := by
        rcases hfor.kind with ⟨h, _⟩ | ⟨h, _⟩ | ⟨h, _⟩
        · exact h.symm
        · rw [h] at hword
          cases hword
        · rw [h] at hword
          cases hword
      have hheading : (parse text options).heading ⟨focus, k :: ks⟩ = t.text ++ ['\n'] := by
        simp only [Parse.heading, Cursor.parent?, hk', if_true, hkeyword, Option.elim_some, htext]
      rw [hheading]
      exact .inside (hreads.sized t ht).1 hscan (hkind ▸ hs)
    · have hk' : ¬ (k.plug focus).kind = .sectionNode := hk
      have hheading : (parse text options).heading ⟨focus, k :: ks⟩ = [] := by
        simp only [Parse.heading, Cursor.parent?, if_neg hk']
      simp only [Parse.ruleAt?, Cursor.parent?, Option.bind_eq_bind, Option.bind_some, if_neg hk']
        at hrule
      cases hrule
      rw [hheading]
      exact .top

/-! ## Documents with one statement -/

namespace Rule

theorem body_border (rule : StatementRule) {i : Input} (h : AtBorder i) :
    body rule i = ⟨(), {}, i⟩ := by
  have hstep := bodyStep_border rule h
  rw [body_eq, repeatWhile_neg (by rw [hstep]; exact fun h => Bool.noConfusion h.1), hstep]

/-- At the end of the tokens a rule leaves no events. -/
theorem Conforms.events_eq_nil {α : Type} {K : Kind → Prop} {n : Nat} {p : Rule α}
    {Q : α → Input → Prop} {i : Input} (h : Conforms K n p Q i) (hi : i.Proper)
    (hnil : i.tokens = []) : (p i).output.events = [] ∧ (p i).rest.tokens = [] := by
  obtain ⟨xs, f, ht, he⟩ := h.trace
  obtain ⟨rfl, hrest⟩ := List.append_eq_nil_iff.1 (ht.tokens_eq.symm.trans hnil)
  refine ⟨?_, hrest⟩
  have hleaves := List.forall₂_nil_left_iff.1 ht.shown
  cases f with
  | nil => exact he
  | cons s f =>
    rw [Skeleton.eventsAll, leavesOf_append] at hleaves
    exact absurd (List.append_eq_nil_iff.1 hleaves).1
      (ht.forest_proper hi s List.mem_cons_self).leaves_ne

end Rule

/-- A tree is all there is in a document, or comes last in its only section. -/
inductive Skeleton.Hung (s : Skeleton) : List Skeleton → Prop where
  | top : Hung s [s]
  | inside (before : List Skeleton) : Hung s [.node .sectionNode (before ++ [s])]

theorem Node.exists_children_of_map {ns : List Node} {gs : List Skeleton} {s : Skeleton}
    (fs : List Skeleton) (h : ns.map Node.skeleton = fs ++ s :: gs) :
    ∃ as m bs, ns = as ++ m :: bs ∧ m.skeleton = s := by
  obtain ⟨as, ms, rfl, _, hms⟩ := List.map_eq_append_iff.1 h
  obtain ⟨m, bs, rfl, hm, _⟩ := List.map_eq_cons_iff.1 hms
  exact ⟨as, m, bs, rfl, hm⟩

/-- The place of such a tree. -/
theorem Skeleton.Hung.exists_cursor {t : Tree} {s : Skeleton} {f : List Skeleton} {size : Nat}
    (h : s.Hung f) (hroot : t.root.Rooted f size) :
    ∃ c ∈ t.cursors, c.focus.skeleton = s ∧ c.focus.Fitted ∧
      (c.path.head?.any fun k => k.kind == .sectionNode || k.kind == .document) = true := by
  have hskeletons := hroot.skeletons
  cases h with
  | top =>
    obtain ⟨as, m, bs, hchildren, hm⟩ := Node.exists_children_of_map [] hskeletons
    have hmem : m ∈ t.root.children := hchildren ▸ by simp
    refine ⟨_, Cursor.descendantsFrom_subset hchildren (Cursor.self_mem_descendantsFrom _ m), hm,
      hroot.tiled.fitted m hmem, ?_⟩
    simp [hroot.kind]
  | inside before =>
    obtain ⟨as, n, bs, hchildren, hn⟩ := Node.exists_children_of_map [] hskeletons
    have hmem : n ∈ t.root.children := hchildren ▸ by simp
    have hfitted := hroot.tiled.fitted n hmem
    have hkind : n.kind = .sectionNode := by rw [← Node.kind_skeleton, hn]; rfl
    rw [Node.skeleton_of_isNode (by rw [hkind]; rfl), Skeleton.node.injEq] at hn
    obtain ⟨cs, m, ds, hn', hm⟩ := Node.exists_children_of_map before hn.2
    refine ⟨_, Cursor.descendantsFrom_subset hchildren (Cursor.descendantsFrom_subset hn'
      (Cursor.self_mem_descendantsFrom _ m)), hm, hfitted.children m (hn' ▸ by simp), ?_⟩
    simp [hkind]

/-- The place in a document where the only statement is read. -/
structure Rule.Leads (i : Input) (rule : StatementRule) (j : Input) (pre : Output)
    (post : Input → Output) : Prop where
  reaches : Reaches i rule j pre post
  proper : j.Proper
  events : ∀ (s : Skeleton) (k : Input), k.Proper → k.tokens = [] →
    ∃ f, s.Hung f ∧ pre.events ++ (s.events ++ (post k).events) = Skeleton.eventsAll f

namespace Rule

theorem remains_events {p : Rule Unit} {K : Kind → Prop} {n : Nat} {Q : Unit → Input → Prop}
    {k : Input} (h : Conforms K n p Q k) (hk : k.Proper) (hnil : k.tokens = []) :
    (remains (p k)).events = [] := by
  obtain ⟨h₁, h₂⟩ := h.events_eq_nil hk hnil
  rw [remains, Output.events_append, h₁, h₂]
  rfl

theorem leads_top {i : Input} (hi : i.Proper) :
    Leads i .implicit i {} fun k => remains (contents k) := by
  refine ⟨.top (.nil i), hi, fun s k hk hnil => ⟨[s], .top, ?_⟩⟩
  rw [remains_events (spec_contents (P := fun _ => True) k hk (Nat.le_refl _) trivial) hk hnil,
    List.append_nil, Skeleton.eventsAll_singleton]
  rfl

/-- Behind a line with a keyword. -/
theorem leads_inside {i : Input} {keyword line : Token} {ts : List Token} {s : SectionRule}
    (hi : i.Proper) (ht : i.tokens = keyword :: line :: ts)
    (hs : Grammar.section? keyword.kind = some s) (hnl : line.kind = .newline) : ∃ pre,
      Leads i s.rule ((i.after keyword (line :: ts)).after line ts) pre (remainsOf s keyword) := by
  obtain ⟨hword, _⟩ := Grammar.isSectionKeyword_of_section? hs
  have hn : i.Next [] keyword (line :: ts) := by
    exact ⟨ht, allTrivia_nil, Kind.not_isTrivia_of_isSectionKeyword hword⟩
  have hn' : (i.after keyword (line :: ts)).Next [] line ts :=
    ⟨rfl, allTrivia_nil, by rw [hnl]; rfl⟩
  have hi' : (i.after keyword (line :: ts)).Proper := hi.of_suffix rfl ⟨[keyword], ht.symm⟩
  have hsection : AtSection s i := by
    rw [AtSection, hn.peek_zero, hs]
  have hbody := body_border .implicit (i := i) (.inr (by rw [hn.peek_zero, hword]))
  have hsections : Loops sectionsStep (body .implicit i).rest {} i := by
    rw [hbody]
    exact .nil i
  have hstep : bodyStep s.rule (i.after keyword (line :: ts)) =
      ⟨true, .token line.kind line.span, (i.after keyword (line :: ts)).after line ts⟩ := by
    rw [bodyStep_newline s.rule (by rw [hn'.peek_zero, hnl]), bump_eq, hn'.peek_zero,
      bumpAs_next hn' (hi'.ne_eof hn'.mem)]
    rfl
  have hloops : Loops (bodyStep s.rule) (i.after keyword (line :: ts)) _ _ :=
    .cons (by rw [hstep]) (by rw [hstep]; simp [Input.after]) (.nil _)
  rw [hstep] at hloops
  refine ⟨_, .inside hsections hsection hn hloops,
    hi'.of_suffix rfl ⟨[line], rfl⟩, fun x k hk hnil => ?_⟩
  have hconforms := spec_body (K := fun _ => True) (P := fun _ => True) (fun _ _ => trivial) trivial
    s.rule k hk (Nat.le_refl _) trivial
  obtain ⟨hevents, hrest⟩ := hconforms.events_eq_nil hk hnil
  have hending := remains_events
    (spec_ending _ (hconforms.proper hk) (Nat.le_refl _) hconforms.post) (hconforms.proper hk) hrest
  have hclosing : (closing s keyword (body s.rule k).rest).events = [] := by
    rw [closing]
    split_ifs <;> rfl
  refine ⟨_, .inside [.leaf keyword.kind keyword.span, .leaf line.kind line.span], ?_⟩
  simp only [hbody, remainsOf, Output.events_append, hevents, hending, hclosing, Output.opening,
    Output.closed, Output.token, Output.trivia, Skeleton.eventsAll, Skeleton.events]
  simp [Skeleton.eventsAll, Skeleton.events]

end Rule

/-- A line with a keyword and a line feed is read as such, whatever follows. -/
theorem Reader.reads_heading {w rest : Text} {mode : Mode} {kind : Kind} (hw : w ≠ [])
    (hscan : Lexeme.scan mode (w ++ rest) = (kind, w.length)) (hword : kind.isSectionKeyword = true)
    (x : Text) : ∃ (keyword line : Token) (r : Reader), keyword.kind = kind ∧ line.kind = .newline ∧
      line.span.stop = (w ++ ['\n']).byteSize ∧ r.rest = x ∧
      r.position.offset = (w ++ ['\n']).byteSize ∧
      Reads (.ofText (w ++ ['\n'] ++ x)) .statementStart [keyword, line] r .statementStart := by
  have hkeyword := next_append (x := '\n' :: x) .zero hw
    (Lexeme.scan_keyword hscan hw hword (s := '\n') rfl x)
  have hline := next_append (w := ['\n']) (x := x) (Position.zero.advance w) (List.cons_ne_nil _ _)
    (Lexeme.scan_lineFeed .statementStart x)
  have hoffset : ((Position.zero.advance w).advance ['\n']).offset = (w ++ ['\n']).byteSize := by
    rw [Position.advance_offset, Position.advance_offset, Text.byteSize_append]
    exact congrArg (· + _) (Nat.zero_add _)
  have hmode := Mode.next_of_isSectionKeyword hword
  have htail := Reads.cons_of_next (List.cons_ne_nil _ _) hline
    (.nil ⟨x, (Position.zero.advance w).advance ['\n']⟩ .statementStart)
  rw [← hmode] at htail
  have hreads := Reads.cons_of_next (fun h => hw (List.append_eq_nil_iff.1 h).1) hkeyword htail
  rw [hmode, ← List.singleton_append, ← List.append_assoc] at hreads
  exact ⟨_, _, _, rfl, rfl, hoffset, rfl, hoffset, hreads⟩

/-- **A document reads what stands behind a heading by the rule of the heading.** -/
theorem Heads.exists_leads {rule : StatementRule} {k : Text} (h : Heads rule k) (x : Text) :
    ∃ (r : Reader) (j : Input) (pre : Output) (post : Input → Output), r.rest = x ∧
      r.position.offset = k.byteSize ∧ j.tokens = (r.tokens .statementStart).tokens ∧
      j.takenEnd = k.byteSize ∧ Rule.Leads (.start (k ++ x)) rule j pre post := by
  cases h with
  | top =>
    exact ⟨.ofText x, .start x, {}, _, rfl, rfl, Input.tokens_ofText_zero x 0, rfl,
      Rule.leads_top (Input.proper_ofText ..)⟩
  | @inside w rest mode kind s hw hscan hs =>
    obtain ⟨keyword, line, r, rfl, hnl, hstop, hrest, hoffset, hreads⟩ :=
      Reader.reads_heading hw hscan (Grammar.isSectionKeyword_of_section? hs).1 x
    have htokens : (Input.start (w ++ ['\n'] ++ x)).tokens =
        keyword :: line :: (r.tokens .statementStart).tokens :=
      (Input.tokens_ofText_zero _ 0).trans hreads.tokens_eq.1
    obtain ⟨pre, hleads⟩ := Rule.leads_inside (Input.proper_ofText ..) htokens hs hnl
    exact ⟨r, _, pre, _, hrest, hoffset, rfl, hstop, hleads⟩

end LpFormat
