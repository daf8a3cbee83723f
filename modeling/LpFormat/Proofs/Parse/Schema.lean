import LpFormat.Proofs.Parse.Leaves
import LpFormat.Proofs.Parsing.Sections

/-!
# All trees obey the schema

Whatever the text, the children of each node are of the kinds that its own kind allows.

* `parse_reading`: the tree of a text, with all that is known about the forest it is made of;
* `Node.contents`: the children of a node but trivia;
* `Node.Conforms`: a node with the children that the schema asks for;
* **`schematic_parse`**: every node of a tree conforms, and expressions are never nested.
-/

namespace LpFormat

open Computability

/-- The tree of a text: a root around nodes that stand for the forest of the document, in which all
faults are accounted for. -/
theorem parse_reading (text : Text) (options : Options) : ∃ f ns,
    Reading (.start text) (Rule.document (.start text)).output (Rule.document (.start text)).rest
      [.node .document f] (lex text) ∧
    (spansOf .unterminatedSection (Rule.document (.start text)).output.diagnostics).map some =
      Skeleton.unclosed f ∧
    List.Forall₂ Trace.Leaf (lex text) (leavesOf (Skeleton.eventsAll f)) ∧
    Node.Built f 1 0 text.byteSize ns ∧
    (parse text options).tree = ⟨text, ⟨0, .document, ⟨0, text.byteSize⟩, ns⟩,
      1 + (ns.map Node.size).sum, 0⟩ := by
  obtain ⟨f, ns, he, hleaf, hns, htree⟩ := parse_built text options
  obtain ⟨f', hr, _, hopen⟩ :=
    Rule.document_reading (Input.proper_ofText text 0 0 .statementStart)
  rw [Input.tokens_ofText_zero] at hr
  obtain rfl : f = f' := by
    have hevents := hr.events
    rw [Skeleton.eventsAll_singleton, Skeleton.events] at hevents
    have hboth := he.symm.trans hevents
    exact Skeleton.eventsAll_injective (List.append_cancel_right (List.cons.inj hboth).2)
  exact ⟨f, ns, hr, hopen, hleaf, hns, htree⟩

namespace Node

/-- The kinds of the children of a node, trivia apart. -/
def contents (n : Node) : List Kind := (n.children.map kind).filter fun k => !k.isTrivia

/-- A node has the children that the schema asks for; tokens have none. -/
def Conforms (n : Node) : Prop := n.kind.isNode = true → n.contents ∈ Schema.children n.kind

theorem kinds_skeletons (ns : List Node) :
    Skeleton.kinds (ns.map skeleton) = (ns.map kind).filter fun k => !k.isTrivia := by
  rw [Skeleton.kinds, List.map_map]
  refine congrArg _ (List.map_congr_left fun n _ => ?_)
  exact kind_skeleton n

theorem Fitted.conforms {n : Node} (h : n.Fitted) (hs : n.skeleton.Schematic) :
    ∀ m ∈ n.descendants, m.Conforms := by
  induction h with
  | token hk _ =>
    rw [descendants_eq]
    refine List.forall_mem_cons.2 ⟨fun hnode => ?_, List.forall_mem_nil _⟩
    rw [Kind.isToken] at hk
    simp [hnode] at hk
  | @node id kind span children hk _ _ _ ih =>
    rw [skeleton_of_isNode hk] at hs
    obtain ⟨hkinds, hchildren⟩ : Skeleton.kinds (children.map skeleton) ∈ Schema.children kind ∧
        ∀ s ∈ children.map skeleton, s.Schematic := by
      cases hs with
      | node hk hf => exact ⟨hk, hf⟩
    rw [descendants_eq]
    refine List.forall_mem_cons.2 ⟨fun _ => ?_, fun m hm => ?_⟩
    · rw [kinds_skeletons] at hkinds
      exact hkinds
    · obtain ⟨c, hc, hm⟩ := List.mem_flatMap.1 hm
      exact ih c hc (hchildren _ (List.mem_map_of_mem hc)) m hm

/-! ## Expressions are not nested -/

theorem Conforms.child {n c : Node} (h : n.Conforms) (hn : n.kind.isNode = true) {p : Kind → Prop}
    (hp : Schema.children n.kind ≤ every p) (htrivia : ∀ k : Kind, k.isTrivia = true → p k)
    (hc : c ∈ n.children) : p c.kind := by
  by_cases hk : c.kind.isTrivia = true
  · exact htrivia _ hk
  · refine hp (h hn) _ (List.mem_filter.2 ⟨List.mem_map_of_mem hc, ?_⟩)
    simpa using hk

theorem mem_descendants_self (n : Node) : n ∈ n.descendants := by
  rw [descendants_eq]
  exact List.mem_cons_self

theorem mem_descendants_child {n c m : Node} (hc : c ∈ n.children) (hm : m ∈ c.descendants) :
    m ∈ n.descendants := by
  rw [descendants_eq]
  exact List.mem_cons_of_mem _ (List.mem_flatMap.2 ⟨c, hc, hm⟩)

theorem Fitted.of_mem_descendants {n : Node} (h : n.Fitted) :
    ∀ m ∈ n.descendants, m.Fitted ∧ m.descendants ⊆ n.descendants := by
  induction h with
  | token hk hs =>
    rw [descendants_eq]
    refine List.forall_mem_cons.2 ⟨⟨.token hk hs, ?_⟩, List.forall_mem_nil _⟩
    rw [descendants_eq]
    exact List.Subset.refl _
  | @node id kind span children hk hne hs hc ih =>
    intro m hm
    rw [descendants_eq] at hm
    rcases List.mem_cons.1 hm with rfl | hm
    · exact ⟨.node hk hne hs hc, List.Subset.refl _⟩
    · obtain ⟨c, hc, hm⟩ := List.mem_flatMap.1 hm
      obtain ⟨hfit, hsub⟩ := ih c hc m hm
      exact ⟨hfit, fun x hx => mem_descendants_child (n := ⟨id, kind, span, children⟩) hc (hsub hx)⟩

end Node

namespace Schema

theorem one_le_every {k : Kind} {p : Kind → Prop} (h : p k) : one k ≤ every p :=
  single_le_every fun _ ha => ha ▸ h

theorem comparisons_le_every {p : Kind → Prop} (h : ∀ k, k.isComparison = true → p k) :
    oneOf Grammar.comparisons ≤ every p := by
  exact single_le_every fun k hk => h k (Grammar.contains_comparisons ▸ hk)

theorem optional_le_every {l : Language Kind} {p : Kind → Prop} (h : l ≤ every p) :
    optional l ≤ every p := by
  refine add_le ?_ h
  rintro w rfl
  exact List.forall_mem_nil _

/-- Terms hold nothing but tokens. -/
theorem term_le_every : children .term ≤ every fun k => k.isToken = true := by
  refine mul_le_every (mul_le_every (kstar_le_every (add_le ?_ ?_))
    (optional_le_every (add_le (add_le ?_ ?_) ?_))) (optional_le_every (add_le ?_ ?_)) <;>
    exact one_le_every rfl

/-- The nodes in an expression are terms and errors. -/
theorem expression_le_every : children .expression ≤
    every fun k => k.isToken = true ∨ k = .term ∨ k = .errorNode := by
  have hterm : one .term ≤ every fun k => k.isToken = true ∨ k = .term ∨ k = .errorNode :=
    single_le_every fun _ h => .inr (.inl h)
  have herror : one .errorNode ≤ every fun k => k.isToken = true ∨ k = .term ∨ k = .errorNode :=
    single_le_every fun _ h => .inr (.inr h)
  have htoken : ∀ {k : Kind}, k.isToken = true →
      one k ≤ every fun k => k.isToken = true ∨ k = .term ∨ k = .errorNode :=
    fun hk => single_le_every fun _ h => .inl (h ▸ hk)
  refine mul_le_every hterm (kstar_le_every (add_le (add_le ?_ hterm) herror))
  exact mul_le_every (mul_le_every (mul_le_every (add_le (htoken rfl) (htoken rfl))
    (kstar_le_every (htoken rfl))) (kstar_le_every herror)) (optional_le_every hterm)

end Schema

/-- What is below the children of an expression is a token. -/
theorem Node.Fitted.isToken_below_expression {n : Node} (h : n.Fitted) (hk : n.kind = .expression)
    (hconforms : ∀ m ∈ n.descendants, m.Conforms) :
    ∀ c ∈ n.children, ∀ d ∈ c.children, d.kind.isToken = true := by
  intro c hc d hd
  have hkind := (hconforms n n.mem_descendants_self).child
    (p := fun k => k.isToken = true ∨ k = .term ∨ k = .errorNode)
    (hk ▸ rfl) (hk ▸ Schema.expression_le_every) (fun k h => .inl (Kind.isToken_of_isTrivia h)) hc
  have hcconforms := hconforms c (mem_descendants_child hc c.mem_descendants_self)
  rcases hkind with htoken | hterm | herror
  · rw [(h.children c hc).children_eq_nil htoken] at hd
    cases hd
  · exact hcconforms.child (hterm ▸ rfl) (hterm ▸ Schema.term_le_every)
      (fun k h => Kind.isToken_of_isTrivia h) hd
  · exact hcconforms.child (p := fun k => k.isToken = true) (herror ▸ rfl) (herror ▸ le_rfl)
      (fun k h => Kind.isToken_of_isTrivia h) hd

/-- Below an expression there is no other one. -/
theorem Node.Fitted.not_nested {n : Node} (h : n.Fitted) (hk : n.kind = .expression)
    (hconforms : ∀ m ∈ n.descendants, m.Conforms) :
    ∀ m ∈ n.children.flatMap descendants, m.kind ≠ .expression := by
  intro m hm hexpr
  obtain ⟨c, hc, hm⟩ := List.mem_flatMap.1 hm
  rw [descendants_eq] at hm
  rcases List.mem_cons.1 hm with rfl | hm
  · have hkind := (hconforms n n.mem_descendants_self).child
      (p := fun k => k.isToken = true ∨ k = .term ∨ k = .errorNode)
      (hk ▸ rfl) (hk ▸ Schema.expression_le_every) (fun k h => .inl (Kind.isToken_of_isTrivia h)) hc
    rw [hexpr] at hkind
    revert hkind
    decide
  · obtain ⟨d, hd, hmd⟩ := List.mem_flatMap.1 hm
    have hdk := h.isToken_below_expression hk hconforms c hc d hd
    rw [descendants_eq, ((h.children c hc).children d hd).children_eq_nil hdk] at hmd
    rw [List.mem_singleton.1 hmd] at hexpr
    rw [hexpr] at hdk
    cases hdk

/-- **Every node of a tree has the children that the schema asks for**, whatever the text, and no
expression is inside another. -/
theorem schematic_parse (text : Text) (options : Options) :
    (∀ n ∈ (parse text options).tree.root.descendants, n.Conforms) ∧
      ∀ n ∈ (parse text options).tree.root.descendants, n.kind = .expression →
        ∀ m ∈ n.children.flatMap Node.descendants, m.kind ≠ .expression := by
  obtain ⟨f, ns, hr, _, _, hns, htree⟩ := parse_reading text options
  rw [htree]
  obtain ⟨hkinds, hchildren⟩ : Skeleton.kinds f ∈ Schema.children .document ∧
      ∀ s ∈ f, s.Schematic := by
    cases hr.schematic _ List.mem_cons_self with
    | node hk hf => exact ⟨hk, hf⟩
  have hconforms : ∀ n ∈ ns, ∀ m ∈ n.descendants, m.Conforms := fun n hn =>
    (hns.fitted n hn).conforms (hchildren _ (hns.skeletons ▸ List.mem_map_of_mem hn))
  rw [Node.descendants_eq]
  refine ⟨List.forall_mem_cons.2 ⟨fun _ => ?_, fun m hm => ?_⟩,
    List.forall_mem_cons.2 ⟨Kind.noConfusion, fun m hm hk => ?_⟩⟩
  · rw [← hns.skeletons, Node.kinds_skeletons] at hkinds
    exact hkinds
  · obtain ⟨n, hn, hm⟩ := List.mem_flatMap.1 hm
    exact hconforms n hn m hm
  · obtain ⟨n, hn, hm⟩ := List.mem_flatMap.1 hm
    obtain ⟨hfit, hsub⟩ := (hns.fitted n hn).of_mem_descendants m hm
    exact hfit.not_nested hk fun x hx => hconforms n hn x (hsub hx)

end LpFormat
