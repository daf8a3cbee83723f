import LpFormat.Model.Linear
import LpFormat.Proofs.Parse.Nodes
import LpFormat.Proofs.Token.Numeral

/-!
# Signs in linear expressions

A sign can stand inside a number, in front of a term or between two terms; the coefficients of an
expression carry all of them.

* `Binary64.flipSign`: the bits of a number with the other sign;
* `Tree.literalAmong_eq`, `Node.Conforms.literals_le_one`: the one number of a term or constant;
* `exists_literalValue`: a number in a tree can be read;
* `minusBefore`, `Node.namedTerms`: the operator in front of a term, and the terms with a variable;
* `Tree.IsLiteral`, `Tree.Folds`: the number of a term, and a coefficient that carries its signs;
* **`linearTerms_parse`**: the terms of every expression of a tree.
-/

namespace LpFormat

open Computability

/-! ## Sign bits -/

namespace Binary64

/-- The bits of a number with the sign bit flipped. -/
def flipSign (bits : Nat) : Nat := bits ^^^ 2 ^ 63

theorem flipSign_involutive : Function.Involutive flipSign := by
  intro b
  rw [flipSign, flipSign, Nat.xor_assoc, Nat.xor_self, Nat.xor_zero]

theorem xor_two_pow {m k : Nat} (h : m < 2 ^ k) : m ^^^ 2 ^ k = 2 ^ k + m := by
  refine Nat.eq_of_testBit_eq fun i => ?_
  rw [Nat.testBit_xor, Nat.testBit_two_pow]
  rcases Nat.lt_trichotomy i k with hi | rfl | hi
  · rw [Nat.testBit_two_pow_add_gt hi]
    simp [Nat.ne_of_gt hi]
  · rw [Nat.testBit_two_pow_add_eq]
    simp [Nat.testBit_lt_two_pow h]
  · have hk : (2 : Nat) ^ (k + 1) ≤ 2 ^ i := Nat.pow_le_pow_right (by decide) hi
    have hm : m < 2 ^ i := by omega
    have hsum : 2 ^ k + m < 2 ^ i := by omega
    rw [Nat.testBit_lt_two_pow hm, Nat.testBit_lt_two_pow hsum]
    simp [Nat.ne_of_lt hi]

theorem withSign_false (x : Binary64) : x.withSign false = x := by
  obtain ⟨sign, m⟩ := x
  cases sign <;> rfl

theorem lt_two_pow_of_le {m : Nat} (h : m ≤ infinityMagnitude) : m < 2 ^ 63 :=
  Nat.lt_of_le_of_lt h (by decide)

theorem bits_negative {m : Nat} (h : m ≤ infinityMagnitude) :
    bits ⟨true, m⟩ = flipSign (bits ⟨false, m⟩) := by
  change 2 ^ 63 + m = (0 + m) ^^^ 2 ^ 63
  rw [Nat.zero_add, xor_two_pow (lt_two_pow_of_le h)]

/-- A minus flips the sign bit. -/
theorem bits_withSign {x : Binary64} (h : x.magnitude ≤ infinityMagnitude) (negative : Bool) :
    (x.withSign negative).bits = flipSign^[negative.toNat] x.bits := by
  obtain ⟨sign, m⟩ := x
  cases negative with
  | false => cases sign <;> rfl
  | true =>
    cases sign with
    | false => exact bits_negative h
    | true =>
      rw [bits_negative h]
      exact (flipSign_involutive _).symm

/-- Of some minuses only their parity counts. -/
theorem flipSign_iterate (n b : Nat) :
    flipSign^[(n % 2 == 1).toNat] b = flipSign^[n] b := by
  rcases Nat.mod_two_eq_zero_or_one n with h | h
  · rw [h, flipSign_involutive.iterate_even (Nat.even_iff.2 h)]
    rfl
  · rw [h, flipSign_involutive.iterate_odd (Nat.odd_iff.2 h)]
    rfl

end Binary64

/-! ## The number of a term or constant -/

/-- Whether a node is a number or an infinity. -/
def Node.isLiteral (n : Node) : Bool := Grammar.literals.contains n.kind

namespace Tree

/-- The last number or infinity counts; without one, a malformed number takes its place. -/
theorem literalAmong_eq (t : Tree) (literal : Option (Option Binary64)) (ns : List Node) :
    t.literalAmong literal ns =
      match (ns.filter Node.isLiteral).getLast? with
      | some n => some (t.literalValue? n)
      | none =>
        if literal = none ∧ ∃ n ∈ ns, n.kind = .invalidNumber then some none else literal := by
  induction ns generalizing literal with
  | nil => simp [literalAmong]
  | cons n ns ih =>
    rw [literalAmong]
    by_cases hn : n.isLiteral = true
    · have hn' : Grammar.literals.contains n.kind = true := hn
      rw [if_pos hn', ih, List.filter_cons_of_pos hn, List.getLast?_cons]
      cases (ns.filter Node.isLiteral).getLast? <;> simp
    · have hn' : ¬ Grammar.literals.contains n.kind = true := hn
      rw [if_neg hn', List.filter_cons_of_neg hn]
      by_cases hinvalid : n.kind = .invalidNumber ∧ literal = none
      · rw [if_pos hinvalid, ih]
        simp [hinvalid]
      · rw [if_neg hinvalid, ih]
        cases (ns.filter Node.isLiteral).getLast? with
        | some m => rfl
        | none =>
          refine if_congr (and_congr_right fun hl => ?_) rfl rfl
          simpa using fun h => absurd ⟨h, hl⟩ hinvalid

end Tree

namespace Schema

/-- Words with at most one letter that has a property. -/
def atMostOne {α : Type} (p : α → Bool) : Language α := {w | w.countP p ≤ 1}

section AtMostOne

variable {α : Type} {p : α → Bool} {l m : Language α}

theorem mul_le_atMostOne (hl : l ≤ every fun a => p a = false) (hm : m ≤ atMostOne p) :
    l * m ≤ atMostOne p := by
  rintro w ⟨u, hu, v, hv, rfl⟩
  have hzero : u.countP p = 0 := List.countP_eq_zero.2 fun a ha => by simp [hl hu a ha]
  change (u ++ v).countP p ≤ 1
  rw [List.countP_append, hzero, Nat.zero_add]
  exact hm hv

theorem atMostOne_mul_le (hl : l ≤ atMostOne p) (hm : m ≤ every fun a => p a = false) :
    l * m ≤ atMostOne p := by
  rintro w ⟨u, hu, v, hv, rfl⟩
  have hzero : v.countP p = 0 := List.countP_eq_zero.2 fun a ha => by simp [hm hv a ha]
  change (u ++ v).countP p ≤ 1
  rw [List.countP_append, hzero, Nat.add_zero]
  exact hl hu

theorem single_le_atMostOne {q : α → Prop} : single q ≤ atMostOne p := by
  rintro w ⟨a, -, rfl⟩
  exact List.countP_le_length

theorem optional_le_atMostOne (h : l ≤ atMostOne p) : optional l ≤ atMostOne p := by
  refine add_le ?_ h
  rintro w rfl
  exact Nat.zero_le 1

end AtMostOne

theorem constant_le_atMostOne :
    children .constant ≤ atMostOne fun k => Grammar.literals.contains k := by
  have hsign : ∀ k, Grammar.literals.contains k = false →
      one k ≤ every fun k => Grammar.literals.contains k = false :=
    fun k hk => single_le_every fun _ ha => ha ▸ hk
  refine mul_le_atMostOne (kstar_le_every (add_le (hsign _ rfl) (hsign _ rfl)))
    (optional_le_atMostOne (add_le (add_le ?_ ?_) ?_)) <;> exact single_le_atMostOne

/-- A term has at most one number, like the constant that it begins with. -/
theorem term_le_atMostOne : children .term ≤ atMostOne fun k => Grammar.literals.contains k := by
  refine atMostOne_mul_le constant_le_atMostOne (optional_le_every (add_le ?_ ?_)) <;>
    exact single_le_every fun _ ha => ha ▸ rfl

end Schema

theorem Node.Conforms.literals_le_one {n : Node} (h : n.Conforms)
    (hk : n.kind = .term ∨ n.kind = .constant) : (n.children.filter Node.isLiteral).length ≤ 1 := by
  have hcount : n.contents.countP (fun k => Grammar.literals.contains k) ≤ 1 := by
    obtain hk | hk := hk
    · exact Schema.term_le_atMostOne (hk ▸ h (hk ▸ rfl))
    · exact Schema.constant_le_atMostOne (hk ▸ h (hk ▸ rfl))
  rw [← List.countP_eq_length_filter]
  refine Nat.le_trans (Nat.le_of_eq ?_) hcount
  rw [Node.contents, List.countP_filter, List.countP_map]
  refine List.countP_congr fun m _ => ?_
  rw [Node.isLiteral, Function.comp, Bool.and_eq_true]
  exact ⟨fun hm => ⟨hm, by rw [Grammar.not_isTrivia_of_literals hm]; rfl⟩, fun hm => hm.1⟩

/-- Every number and infinity of a tree can be read. -/
theorem exists_literalValue (text : Text) (options : Options) {n : Node}
    (hn : n ∈ (parse text options).tree.root.descendants) (hk : n.isLiteral = true) :
    ∃ v, (parse text options).tree.literalValue? n = some v ∧
      v.magnitude ≤ Binary64.infinityMagnitude := by
  rw [Tree.literalValue?]
  obtain hk | hk := Grammar.contains_literals.1 hk
  · obtain ⟨t, ht, hstands, htext⟩ := parse_leaf text options hn (hk ▸ rfl)
    obtain ⟨mode, rest, hscan⟩ := exists_scan_of_mem_lex ht
    have htk : t.kind = .number := by
      obtain ⟨h, -⟩ | ⟨h, -⟩ | ⟨h, -⟩ := hstands.kind
      · exact h.symm.trans hk
      · exact absurd (h.symm.trans hk) Kind.noConfusion
      · exact absurd (h.symm.trans hk) Kind.noConfusion
    rw [htk] at hscan
    have hwritten := Lexeme.isWritten_of_scan hscan
    rw [List.take_left] at hwritten
    rw [hk, htext]
    exact hwritten.exists_value
  · rw [hk]
    exact ⟨_, rfl, Nat.le_refl _⟩

/-! ## Operators between terms -/

/-- Whether the last operator among some nodes, behind the last term among them, is a minus. -/
def minusBefore (ns : List Node) : Bool :=
  ((ns.reverse.takeWhile (·.kind != .term)).find? fun n => Grammar.signs.contains n.kind).any
    (·.kind == .minus)

theorem minusBefore_append (ns : List Node) (n : Node) : minusBefore (ns ++ [n]) =
    match n.kind with
    | .plus => false
    | .minus => true
    | .term => false
    | _ => minusBefore ns := by
  rw [minusBefore, List.reverse_append, List.reverse_singleton, List.singleton_append,
    List.takeWhile_cons]
  by_cases hterm : n.kind = .term
  · simp [hterm]
  rw [if_pos (by simpa using hterm)]
  by_cases hsign : Grammar.signs.contains n.kind = true
  · rw [List.find?_cons_of_pos (by exact hsign)]
    obtain h | h := Grammar.contains_signs.1 hsign <;> simp [h]
  · have hplus : n.kind ≠ .plus := fun h => hsign (Grammar.contains_signs.2 (.inl h))
    have hminus : n.kind ≠ .minus := fun h => hsign (Grammar.contains_signs.2 (.inr h))
    rw [List.find?_cons_of_neg (by exact hsign)]
    split
    · contradiction
    · contradiction
    · contradiction
    · rfl

/-- Each of some nodes with those before it. -/
def Node.withBefore (before : List Node) : List Node → List (List Node × Node)
  | [] => []
  | n :: ns => (before, n) :: withBefore (before ++ [n]) ns

theorem Node.mem_withBefore {before ns : List Node} {p : List Node × Node}
    (h : p ∈ withBefore before ns) : p.2 ∈ ns := by
  induction ns generalizing before with
  | nil => cases h
  | cons n ns ih =>
    rcases List.mem_cons.1 h with rfl | h
    · exact List.mem_cons_self
    · exact List.mem_cons_of_mem _ (ih h)

/-- A term that names a variable. -/
def Node.isNamedTerm (n : Node) : Bool := n.kind == .term && n.children.any Node.isVariable

/-- The terms of an expression that name a variable, each with the children before it. -/
def Node.namedTerms (e : Node) : List (List Node × Node) :=
  (withBefore [] e.children).filter (·.2.isNamedTerm)

namespace Tree

theorem linearTermsFrom_eq (t : Tree) (sign : Bool) (n : Node) :
    t.linearTermsFrom sign n = t.linearTermsAmong sign false n.children := by
  obtain ⟨id, kind, span, children⟩ := n
  rw [linearTermsFrom]

theorem termVariable?_eq_none_iff (t : Tree) (n : Node) :
    t.termVariable? n = none ↔ n.children.any Node.isVariable = false := by
  rw [termVariable?, Option.map_eq_none_iff, List.getLast?_eq_none_iff, List.filter_eq_nil_iff,
    List.any_eq_false]

/-- One pair for each term that names a variable; between two terms only operators matter, unless an
expression stands there. -/
theorem linearTermsAmong_forall₂ (t : Tree) (before : List Node) {ns : List Node}
    (hns : ∀ n ∈ ns, n.kind ≠ .expression) :
    List.Forall₂ (fun p l => t.termVariable? p.2 = some l.name ∧
        l.coefficient = (t.coefficient? p.2).map (Binary64.withSign (minusBefore p.1)))
      ((Node.withBefore before ns).filter (·.2.isNamedTerm))
      (t.linearTermsAmong false (minusBefore before) ns) := by
  induction ns generalizing before with
  | nil => exact .nil
  | cons n ns ih =>
    obtain ⟨hexpression, hns⟩ := List.forall_mem_cons.1 hns
    have ih := ih (before ++ [n]) hns
    rw [minusBefore_append] at ih
    rw [Node.withBefore, linearTermsAmong]
    by_cases hk : n.kind = .term
    · rw [hk] at ih ⊢
      simp only at ih ⊢
      cases hv : t.termVariable? n with
      | some name =>
        have hn : n.isNamedTerm = true := by
          rw [Node.isNamedTerm, hk]
          by_contra hno
          rw [(termVariable?_eq_none_iff t n).2 (by simpa using hno)] at hv
          cases hv
        rw [List.filter_cons_of_pos (by exact hn)]
        refine .cons ⟨hv, ?_⟩ ih
        simp only [Binary64.withSign_false]
      | none =>
        have hn : ¬ n.isNamedTerm = true := by
          simp [Node.isNamedTerm, (termVariable?_eq_none_iff t n).1 hv]
        rw [List.filter_cons_of_neg (by exact hn)]
        exact ih
    · have hn : ¬ n.isNamedTerm = true := by simp [Node.isNamedTerm, hk]
      rw [List.filter_cons_of_neg (by exact hn)]
      split
      · rename_i hplus
        simpa only [hplus] using ih
      · rename_i hminus
        simpa only [hminus] using ih
      · contradiction
      · contradiction
      · split at ih
        · contradiction
        · contradiction
        · contradiction
        · exact ih

/-- The value of the number of a term: one if there is none, and an infinity with its own sign. -/
structure IsLiteral (t : Tree) (term : Node) (v : Binary64) : Prop where
  number : ∀ c ∈ term.children, c.kind = .number → Binary64.ofText? (t.textOf c) = some v
  infinity : ∀ c ∈ term.children, c.kind = .infinity →
    v = Binary64.infinity.withSign ((t.textOf c).head? == some '-')
  none : (∀ c ∈ term.children, c.kind ≠ .number ∧ c.kind ≠ .infinity) → v = .one

/-- A linear term carries the last name of a term and the bits of its number, with the sign bit
flipped for each minus in the term and for a minus in front of it. Only a malformed number without
another one has no value. -/
structure Folds (t : Tree) (p : List Node × Node) (l : LinearTerm) : Prop where
  name : ∃ c, (p.2.children.filter Node.isVariable).getLast? = some c ∧ l.name = t.textOf c
  none_iff : l.coefficient = none ↔ (∃ c ∈ p.2.children, c.kind = .invalidNumber) ∧
    ∀ c ∈ p.2.children, c.kind ≠ .number ∧ c.kind ≠ .infinity
  bits : ∀ x, l.coefficient = some x → ∃ v, t.IsLiteral p.2 v ∧
    x.bits = Binary64.flipSign^[p.2.children.countP (·.kind == .minus) + (minusBefore p.1).toNat]
      v.bits

theorem not_isLiteral_iff {n : Node} :
    n.isLiteral = false ↔ n.kind ≠ .number ∧ n.kind ≠ .infinity := by
  rw [Node.isLiteral, ← Bool.not_eq_true, Grammar.contains_literals, not_or]

/-- The coefficient of a term with at most one number, all of which can be read. -/
theorem coefficient?_eq {t : Tree} {n : Node}
    (hone : (n.children.filter Node.isLiteral).length ≤ 1)
    (hread : ∀ c ∈ n.children, c.isLiteral = true → ∃ v, t.literalValue? c = some v ∧
      v.magnitude ≤ Binary64.infinityMagnitude) :
    (t.coefficient? n = none ∧ (∃ c ∈ n.children, c.kind = .invalidNumber) ∧
        ∀ c ∈ n.children, c.kind ≠ .number ∧ c.kind ≠ .infinity) ∨
      ∃ v, t.coefficient? n = some (v.withSign (isNegated n)) ∧ t.IsLiteral n v ∧
        v.magnitude ≤ Binary64.infinityMagnitude ∧
        ¬ ((∃ c ∈ n.children, c.kind = .invalidNumber) ∧
          ∀ c ∈ n.children, c.kind ≠ .number ∧ c.kind ≠ .infinity) := by
  have hliteral := t.literalAmong_eq none n.children
  have hmem : ∀ c, c ∈ n.children.filter Node.isLiteral ↔ c ∈ n.children ∧ c.isLiteral = true :=
    fun c => List.mem_filter
  rw [coefficient?, literal, hliteral]
  cases hl : n.children.filter Node.isLiteral with
  | nil =>
    have hno : ∀ c ∈ n.children, c.kind ≠ .number ∧ c.kind ≠ .infinity := by
      intro c hc
      rw [← not_isLiteral_iff, ← Bool.not_eq_true]
      intro hlit
      have hin := (hmem c).2 ⟨hc, hlit⟩
      rw [hl] at hin
      cases hin
    by_cases hinvalid : ∃ c ∈ n.children, c.kind = .invalidNumber
    · refine .inl ⟨?_, hinvalid, hno⟩
      simp [hinvalid]
    · refine .inr ⟨.one, ?_, ⟨?_, ?_, fun _ => rfl⟩, by decide, fun h => hinvalid h.1⟩
      · simp [hinvalid]
      · exact fun c hc hk => absurd hk (hno c hc).1
      · exact fun c hc hk => absurd hk (hno c hc).2
  | cons c cs =>
    have hcs : cs = [] := by
      rw [hl, List.length_cons] at hone
      exact List.length_eq_zero_iff.1 (by omega)
    subst hcs
    obtain ⟨hc, hlit⟩ := (hmem c).1 (hl ▸ List.mem_singleton_self c)
    have honly : ∀ d ∈ n.children, d.isLiteral = true → d = c := by
      intro d hd hdl
      have hin := (hmem d).2 ⟨hd, hdl⟩
      rw [hl] at hin
      exact List.mem_singleton.1 hin
    obtain ⟨v, hv, hle⟩ := hread c hc hlit
    refine .inr ⟨v, by simp [hv], ⟨?_, ?_, ?_⟩, hle, ?_⟩
    · intro d hd hk
      obtain rfl := honly d hd (by rw [Node.isLiteral, hk]; rfl)
      rwa [literalValue?, hk] at hv
    · intro d hd hk
      obtain rfl := honly d hd (by rw [Node.isLiteral, hk]; rfl)
      rw [literalValue?, hk] at hv
      exact (Option.some.inj hv).symm
    · intro hno
      rw [not_isLiteral_iff.2 (hno c hc)] at hlit
      cases hlit
    · intro hno
      rw [not_isLiteral_iff.2 (hno.2 c hc)] at hlit
      cases hlit

end Tree

/-- The terms below an expression are its children. -/
theorem Node.Fitted.filter_term {e : Node} (h : e.Fitted) (hk : e.kind = .expression)
    (hconforms : ∀ m ∈ e.descendants, m.Conforms) :
    e.descendants.filter (·.kind == .term) = e.children.filter (·.kind == .term) := by
  refine filter_descendants_children (by simp [hk]) fun c hc => filter_descendants_self ?_
  intro m hm
  obtain ⟨d, hd, hm⟩ := List.mem_flatMap.1 hm
  have hdk := h.isToken_below_expression hk hconforms c hc d hd
  rw [descendants_eq, ((h.children c hc).children d hd).children_eq_nil hdk] at hm
  rw [List.mem_singleton.1 hm, beq_eq_false_iff_ne]
  intro hterm
  rw [hterm] at hdk
  cases hdk

/-- **The terms of an expression carry all their signs**: there is one linear term for each term
that names a variable, in order, with the name, the number and the signs of that term and with the
last operator in front of it, whatever else stands in between. -/
theorem linearTerms_parse (text : Text) (options : Options) {e : Node}
    (he : e ∈ (parse text options).tree.root.descendants) (hk : e.kind = .expression) :
    List.Forall₂ (parse text options).tree.Folds e.namedTerms
        ((parse text options).tree.linearTerms e) ∧
      e.descendants.filter (·.kind == .term) = e.children.filter (·.kind == .term) := by
  obtain ⟨hfit, hbelow⟩ := parse_nodes text options he (by rw [hk]; exact Kind.noConfusion)
  refine ⟨?_, hfit.filter_term hk fun m hm => (hbelow m hm).1⟩
  have hmem : ∀ p ∈ e.namedTerms, p.2 ∈ e.children ∧ p.2.kind = .term := by
    intro p hp
    obtain ⟨hp, hnamed⟩ := List.mem_filter.1 hp
    rw [Node.isNamedTerm, Bool.and_eq_true, beq_iff_eq] at hnamed
    exact ⟨Node.mem_withBefore hp, hnamed.1⟩
  -- no expression stands among the children of another
  have hnested : ∀ n ∈ e.children, n.kind ≠ .expression := fun n hn =>
    hfit.not_nested hk (fun m hm => (hbelow m hm).1) n
      (List.mem_flatMap.2 ⟨n, hn, n.mem_descendants_self⟩)
  have hall := (parse text options).tree.linearTermsAmong_forall₂ [] hnested
  rw [Tree.linearTerms, Tree.linearTermsFrom_eq]
  refine ((List.forall₂_and_left _ _).2 ⟨hmem, hall⟩).imp ?_
  rintro p l ⟨⟨hp, hterm⟩, hname, hcoefficient⟩
  have hone : (p.2.children.filter Node.isLiteral).length ≤ 1 := by
    refine (hbelow p.2 ?_).1.literals_le_one (.inl hterm)
    exact Node.mem_descendants_child hp p.2.mem_descendants_self
  have hread : ∀ c ∈ p.2.children, c.isLiteral = true → ∃ v,
      (parse text options).tree.literalValue? c = some v ∧
        v.magnitude ≤ Binary64.infinityMagnitude := by
    intro c hc
    refine exists_literalValue text options (hbelow c ?_).2
    exact Node.mem_descendants_child hp (Node.mem_descendants_child hc c.mem_descendants_self)
  obtain ⟨c, hc, hctext⟩ := Option.map_eq_some_iff.1 hname
  rcases Tree.coefficient?_eq hone hread with ⟨hnone, hinvalid⟩ | ⟨v, hv, hliteral, hle, hinvalid⟩
  · rw [hnone, Option.map_none] at hcoefficient
    refine ⟨⟨c, hc, hctext.symm⟩, iff_of_true hcoefficient hinvalid, fun x hx => ?_⟩
    rw [hcoefficient] at hx
    cases hx
  · rw [hv, Option.map_some] at hcoefficient
    refine ⟨⟨c, hc, hctext.symm⟩, iff_of_false ?_ hinvalid, fun x hx => ⟨v, hliteral, ?_⟩⟩
    · rw [hcoefficient]
      exact Option.some_ne_none _
    · rw [hcoefficient, Option.some.injEq] at hx
      have hle' : (v.withSign (Tree.isNegated p.2)).magnitude ≤ Binary64.infinityMagnitude := hle
      rw [← hx, Binary64.bits_withSign hle', Binary64.bits_withSign hle, Tree.isNegated,
        Binary64.flipSign_iterate, Nat.add_comm, Function.iterate_add_apply]

/-- A number with a sign of its own behind a minus: the two signs cancel. -/
theorem linearTerms_parse_minus_minus :
    ∃ e ∈ (parse "x - -2 y".toList {}).tree.root.descendants, e.kind = .expression ∧
      ((parse "x - -2 y".toList {}).tree.linearTerms e).map
        (fun l => (l.coefficient.map Binary64.bits, l.name)) =
          [(some 0x3ff0000000000000, ['x']), (some 0x4000000000000000, ['y'])] ∧
      List.Forall₂ (parse "x - -2 y".toList {}).tree.Folds e.namedTerms
        ((parse "x - -2 y".toList {}).tree.linearTerms e) := by
  have h : ∃ e ∈ (parse "x - -2 y".toList {}).tree.root.descendants, e.kind = .expression ∧
      ((parse "x - -2 y".toList {}).tree.linearTerms e).map
        (fun l => (l.coefficient.map Binary64.bits, l.name)) =
          [(some 0x3ff0000000000000, ['x']), (some 0x4000000000000000, ['y'])] := by
    decide +kernel
  obtain ⟨e, he, hk, hbits⟩ := h
  exact ⟨e, he, hk, hbits, (linearTerms_parse _ _ he hk).1⟩

end LpFormat
