import LpFormat.Model.Document
import LpFormat.Proofs.Model.Linear
import LpFormat.Proofs.Reparse.Invariant
import LpFormat.Proofs.Token.Munch

/-!
# Numbers keep their values

* `Parse.Faithful.child_mem`, `Parse.Faithful.exists_parsed`: nodes of a result of edits, and the
  nodes of its text parsed anew;
* `Parse.Faithful.exists_literalValue`, `Parse.Faithful.exists_literal`: the values of numbers, and
  of the nodes that hold them;
* `Tree.NumbersRead`: no number of a tree is dropped;
* **`numbers_read`**: numbers are scanned as far as they go, every number token is a number with an
  optional sign, every such text has a value, and no tree drops one.
-/

namespace LpFormat

namespace Parse.Faithful

variable {p : Parse} {n : Node}

theorem child_mem (hp : p.Faithful) (hn : n ∈ p.tree.root.descendants) {c : Node}
    (hc : c ∈ n.children) : c ∈ p.tree.root.descendants := by
  obtain ⟨f, _, hroot⟩ := hp.tree
  rw [Node.descendants_eq] at hn
  rcases List.mem_cons.1 hn with rfl | hn
  · exact Node.mem_descendants_child hc c.mem_descendants_self
  · obtain ⟨d, hd, hn⟩ := List.mem_flatMap.1 hn
    obtain ⟨-, hsub⟩ := (hroot.tiled.fitted d hd).of_mem_descendants n hn
    exact Node.mem_descendants_child hd
      (hsub (Node.mem_descendants_child hc c.mem_descendants_self))

/-- Every node stands at its place also in the tree of the text parsed anew. -/
theorem exists_parsed (hp : p.Faithful) (hn : n ∈ p.tree.root.descendants) :
    ∃ m ∈ (parse p.text p.options).tree.root.descendants,
      m.kind = n.kind ∧ (parse p.text p.options).tree.textOf m = p.tree.textOf n := by
  have htext : (parse p.text p.options).text = p.text := by
    obtain ⟨f, ns, _, _, _, htree⟩ := parse_built p.text p.options
    rw [Parse.text, htree]
  have hshapes := hp.shapes_eq (parse_faithful p.text p.options) htext.symm
  have hmem : (n.kind, n.span, n.children.length) ∈ p.tree.shapes := List.mem_map_of_mem hn
  rw [hshapes] at hmem
  obtain ⟨m, hm, he⟩ := List.mem_map.1 hmem
  obtain ⟨hkind, hrest⟩ := Prod.mk.inj he
  refine ⟨m, hm, hkind, ?_⟩
  rw [Tree.textOf, Tree.textOf, (Prod.mk.inj hrest).1]
  exact congrArg (Text.slice · n.span) htext

/-- Every number and infinity of a result of edits can be read. -/
theorem exists_literalValue (hp : p.Faithful) (hn : n ∈ p.tree.root.descendants)
    (hk : n.isLiteral = true) : ∃ v, p.tree.literalValue? n = some v := by
  obtain ⟨m, hm, hkind, htext⟩ := hp.exists_parsed hn
  have hmk : m.isLiteral = true := by rwa [Node.isLiteral, hkind]
  obtain ⟨v, hv, -⟩ := LpFormat.exists_literalValue p.text p.options hm hmk
  refine ⟨v, ?_⟩
  rw [Tree.literalValue?, hkind, htext] at hv
  exact hv

/-- A node with a number has a literal with a value. -/
theorem exists_literal (hp : p.Faithful) (hn : n ∈ p.tree.root.descendants)
    (hc : ∃ c ∈ n.children, c.kind = .number) : ∃ v, p.tree.literal n = some (some v) := by
  obtain ⟨c, hc, hk⟩ := hc
  have hmem : c ∈ n.children.filter Node.isLiteral :=
    List.mem_filter.2 ⟨hc, by rw [Node.isLiteral, hk]; rfl⟩
  obtain ⟨m, hm⟩ := Option.ne_none_iff_exists'.1 fun hnone =>
    List.ne_nil_of_mem hmem (List.getLast?_eq_none_iff.1 hnone)
  obtain ⟨hmc, hml⟩ := List.mem_filter.1 (List.mem_of_getLast? hm)
  obtain ⟨v, hv⟩ := hp.exists_literalValue (hp.child_mem hn hmc) hml
  refine ⟨v, ?_⟩
  rw [Tree.literal, Tree.literalAmong_eq, hm]
  exact congrArg some hv

end Parse.Faithful

/-- No number of a tree is dropped: each has a value, and so has every coefficient, constant and
right-hand side that is written with one. -/
structure Tree.NumbersRead (t : Tree) : Prop where
  literal : ∀ n ∈ t.root.descendants, n.kind = .number → ∃ v, t.literalValue? n = some v
  coefficient : ∀ n ∈ t.root.descendants, (∃ c ∈ n.children, c.kind = .number) →
    ∃ v, t.coefficient? n = some v
  constant : ∀ n ∈ t.root.descendants, (∃ c ∈ n.children, c.kind = .number) →
    ∃ v, t.constantValue? n = some v
  rhs : ∀ n ∈ t.root.descendants, ∀ m, n.childOfKind? .constant = some m →
    (∃ c ∈ m.children, c.kind = .number) → ∃ v, (t.constraint n).rhs = some v

theorem Parse.Faithful.numbersRead {p : Parse} (hp : p.Faithful) : p.tree.NumbersRead := by
  have hconstant : ∀ n ∈ p.tree.root.descendants, (∃ c ∈ n.children, c.kind = .number) →
      ∃ v, p.tree.constantValue? n = some v := by
    intro n hn hc
    obtain ⟨v, hv⟩ := hp.exists_literal hn hc
    exact ⟨_, by rw [Tree.constantValue?, hv]; rfl⟩
  refine ⟨fun n hn hk => ?_, fun n hn hc => ?_, hconstant, fun n hn m hm hc => ?_⟩
  · refine hp.exists_literalValue hn ?_
    rw [Node.isLiteral, hk]
    rfl
  · obtain ⟨v, hv⟩ := hp.exists_literal hn hc
    exact ⟨_, by rw [Tree.coefficient?, hv]; rfl⟩
  · obtain ⟨v, hv⟩ := hconstant m (hp.child_mem hn (List.mem_of_find?_eq_some hm)) hc
    exact ⟨v, by rw [Tree.constraint, hm]; exact hv⟩

/-- **Numbers are read as they are written.** Where a number with an optional sign starts, the token
is the sign and the longest number behind it, or, if a point follows, these and all digits and points
that follow; so the text of every number token is a number with an optional sign, every such text has
a value, and no tree that edits lead to drops a number. -/
theorem numbers_read :
    (∀ (r : Reader) (mode : Mode) (sign body rest : Text) (d : Char),
      r.rest = sign ++ body → (sign = [] ∨ sign = ['+'] ∨ sign = ['-']) → d.isDigit = true →
      (body = d :: rest ∨ body = '.' :: d :: rest) → Number.Munches sign body (r.next mode).1) ∧
    (∀ (r : Reader) (mode : Mode), (r.next mode).1.kind = .number →
      Number.IsWritten (r.next mode).1.text) ∧
    (∀ w, Number.IsWritten w → ∃ v, Binary64.ofText? w = some v) ∧
    ∀ text options p, Parse.Reachable text options p → p.tree.NumbersRead := by
  refine ⟨?_, ?_, ?_, fun text options p hp => hp.faithful.numbersRead⟩
  · intro r mode sign body rest d hr hsign hd hbody
    exact r.munches_next mode hsign (Number.startsNumber_iff.2 ⟨d, rest, hd, hbody⟩) hr
  · intro r mode hk
    have hne : r.rest ≠ [] := fun hnil => by
      rw [(Reader.next_eof mode hnil).1] at hk
      cases hk
    have hy := Reader.yields_next mode hne
    have hscan := hy.scan
    rw [hk, hy.rest] at hscan
    have hwritten := Lexeme.isWritten_of_scan hscan
    rwa [List.take_left] at hwritten
  · intro w hw
    obtain ⟨v, hv, -⟩ := hw.exists_value
    exact ⟨v, hv⟩

/-- A second point spoils the number behind the sign, exponent and all. -/
theorem numbers_read_spoilt :
    Number.Munches ['-'] "1.5e3.2".toList ((Reader.ofText "-1.5e3.2".toList).next .inline).1 ∧
      ((Reader.ofText "-1.5e3.2".toList).next .inline).1.kind = .invalidNumber ∧
      (parse "-1.5e+3 x".toList {}).tree.NumbersRead :=
  ⟨numbers_read.1 _ .inline ['-'] _ ".5e3.2".toList '1' rfl (.inr (.inr rfl)) rfl (.inl rfl), rfl,
    numbers_read.2.2.2 _ _ _ .start⟩

end LpFormat
