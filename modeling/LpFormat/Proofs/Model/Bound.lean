import LpFormat.Model.Bound
import LpFormat.Proofs.Model.Linear
import LpFormat.Proofs.Parse.Statements
import LpFormat.Proofs.Tree.Cursors

/-!
# Limits of bounds

A bound without faults is one of four lines, and its limits are those of the last comparison on each
side. They say what the line says unless a comparison is followed by a looser one.

* `Binary64.rank`: numbers in their order;
* `Condition`, `Tree.Line`: the comparisons of a line, the variable on their left;
* `Limits.ofConditions`, `Limits.Conjoins`: the limits after some comparisons, and limits that say the
  same as all of them together;
* `Kind.weight`, `Production.weighing`: comparisons, numbers and names of a word, counted;
* `Node.Fitted.exists_line`: the line of a bound without faults;
* **`limits_parse`**: the limits of a bound without faults, and when they are those of its line.
-/

namespace LpFormat

open Computability

/-! ## Conditions and limits -/

namespace Binary64

/-- A number as a whole number that grows with it. Both zeros are zero. -/
def rank (x : Binary64) : Int := if x.negative then -(x.magnitude : Int) else x.magnitude

instance : LE Binary64 := ⟨fun x y => x.rank ≤ y.rank⟩

theorem le_iff {x y : Binary64} : x ≤ y ↔ x.rank ≤ y.rank := Iff.rfl

end Binary64

/-- Whether a variable that compares so has a lower limit. -/
def Comparison.isLower (op : Comparison) : Bool := op != .lt && op != .le

/-- Whether a variable that compares so has an upper limit. -/
def Comparison.isUpper (op : Comparison) : Bool := op != .gt && op != .ge

/-- A comparison of a variable with a value. -/
structure Condition where
  op : Comparison
  value : Binary64
deriving DecidableEq, Repr

namespace Condition

/-- Whether a number satisfies a comparison, which may hold with equality. -/
def Holds (c : Condition) (x : Binary64) : Prop :=
  (c.op.isLower = true → c.value ≤ x) ∧ (c.op.isUpper = true → x ≤ c.value)

/-- A comparison is at least as tight as one before it, wherever both set a limit. -/
def Tightens (c d : Condition) : Prop :=
  (c.op.isLower = true → d.op.isLower = true → c.value ≤ d.value) ∧
    (c.op.isUpper = true → d.op.isUpper = true → d.value ≤ c.value)

end Condition

namespace Limits

/-- The limits after some comparisons. -/
def ofConditions (cs : List Condition) : Limits := cs.foldl (fun l c => l.apply c.op c.value) {}

/-- Whether a number lies within limits. -/
def Allows (l : Limits) (x : Binary64) : Prop :=
  (∀ a ∈ l.lower, a ≤ x) ∧ ∀ b ∈ l.upper, x ≤ b

/-- Limits that are the conjunction of some comparisons: the lower one is the greatest, the upper one
is the least, and the numbers within them are those that satisfy every comparison. -/
structure Conjoins (l : Limits) (cs : List Condition) : Prop where
  greatest : ∀ a ∈ l.lower, ∀ c ∈ cs, c.op.isLower = true → c.value ≤ a
  least : ∀ b ∈ l.upper, ∀ c ∈ cs, c.op.isUpper = true → b ≤ c.value
  allows : ∀ x, l.Allows x ↔ ∀ c ∈ cs, c.Holds x

theorem apply_eq (l : Limits) (op : Comparison) (v : Binary64) : l.apply op v =
    ⟨if op.isLower then some v else l.lower, if op.isUpper then some v else l.upper⟩ := by
  cases op <;> rfl

/-- The last comparison on each side counts. -/
theorem ofConditions_eq (cs : List Condition) : ofConditions cs =
    ⟨(cs.filter (·.op.isLower)).getLast?.map Condition.value,
      (cs.filter (·.op.isUpper)).getLast?.map Condition.value⟩ := by
  induction cs using List.reverseRecOn with
  | nil => rfl
  | append_singleton cs c ih =>
    have hstep : ofConditions (cs ++ [c]) = (ofConditions cs).apply c.op c.value := List.foldl_concat ..
    rw [hstep, ih, apply_eq, List.filter_append, List.filter_append]
    cases hl : c.op.isLower <;> cases hu : c.op.isUpper <;> simp [hl, hu]

section Last

variable {p : Condition → Bool} {R : Binary64 → Binary64 → Prop} {cs : List Condition}

/-- If the last value among some goes beyond all of them, what is beyond it is beyond all. -/
theorem forall_last_iff (htrans : ∀ {x y z}, R x y → R y z → R x z)
    (hlast : ∀ a ∈ (cs.filter p).getLast?.map Condition.value, ∀ c ∈ cs, p c = true → R c.value a)
    (x : Binary64) : (∀ a ∈ (cs.filter p).getLast?.map Condition.value, R a x) ↔
      ∀ c ∈ cs, p c = true → R c.value x := by
  constructor
  · intro h c hc hp
    have hne : cs.filter p ≠ [] := List.ne_nil_of_mem (List.mem_filter.2 ⟨hc, hp⟩)
    have ha : ((cs.filter p).getLast hne).value ∈ (cs.filter p).getLast?.map Condition.value := by
      rw [List.getLast?_eq_some_getLast hne]
      rfl
    exact htrans (hlast _ ha c hc hp) (h _ ha)
  · intro h a ha
    obtain ⟨c, hc, rfl⟩ := Option.map_eq_some_iff.1 ha
    obtain ⟨hmem, hp⟩ := List.mem_filter.1 (List.mem_of_getLast? hc)
    exact h c hmem hp

/-- Of two values the last goes beyond both if it goes beyond the first. -/
theorem forall_last_pair_iff (hrefl : ∀ x, R x x) {c d : Condition} :
    (∀ a ∈ ([c, d].filter p).getLast?.map Condition.value, ∀ e ∈ [c, d], p e = true → R e.value a) ↔
      (p c = true → p d = true → R c.value d.value) := by
  cases hc : p c <;> cases hd : p d <;> simp [hc, hd, hrefl]

theorem forall_last_of_length_le_one (hrefl : ∀ x, R x x) (h : cs.length ≤ 1) :
    ∀ a ∈ (cs.filter p).getLast?.map Condition.value, ∀ c ∈ cs, p c = true → R c.value a := by
  intro a ha c hc hp
  obtain rfl : cs = [c] := by
    match cs, h with
    | [d], _ => rw [List.mem_singleton.1 hc]
  simp only [List.filter_cons_of_pos hp, List.filter_nil, List.getLast?_singleton, Option.map_some,
    Option.mem_some_iff] at ha
  exact ha ▸ hrefl _

end Last

/-- What the limits allow follows from their being the greatest and the least. -/
theorem conjoins_ofConditions_iff {cs : List Condition} : (ofConditions cs).Conjoins cs ↔
    (∀ a ∈ (ofConditions cs).lower, ∀ c ∈ cs, c.op.isLower = true → c.value ≤ a) ∧
      ∀ b ∈ (ofConditions cs).upper, ∀ c ∈ cs, c.op.isUpper = true → b ≤ c.value := by
  refine ⟨fun h => ⟨h.greatest, h.least⟩, fun ⟨hgreatest, hleast⟩ => ⟨hgreatest, hleast, ?_⟩⟩
  intro x
  rw [ofConditions_eq] at hgreatest hleast ⊢
  have hlower := forall_last_iff (R := fun x y => x ≤ y) (fun h h' => Int.le_trans h h') hgreatest x
  have hupper := forall_last_iff (R := fun x y => y ≤ x) (fun h h' => Int.le_trans h' h) hleast x
  rw [Allows]
  refine (and_congr hlower hupper).trans ?_
  simp only [Condition.Holds]
  exact ⟨fun h c hc => ⟨h.1 c hc, h.2 c hc⟩, fun h => ⟨fun c hc => (h c hc).1, fun c hc => (h c hc).2⟩⟩

/-- Of two comparisons the second overrides the first, which does no harm if it is as tight. -/
theorem conjoins_iff {cs : List Condition} (h : cs.length ≤ 2) :
    (ofConditions cs).Conjoins cs ↔ cs.Pairwise Condition.Tightens := by
  have hle : ∀ x : Binary64, x ≤ x := fun x => Int.le_refl x.rank
  rw [conjoins_ofConditions_iff, ofConditions_eq]
  match cs, h with
  | [], _ => exact iff_of_true ⟨by simp, by simp⟩ .nil
  | [c], _ =>
    refine iff_of_true ⟨?_, ?_⟩ (List.pairwise_singleton _ _)
    · exact forall_last_of_length_le_one hle (Nat.le_refl 1)
    · exact forall_last_of_length_le_one (R := fun x y => y ≤ x) hle (Nat.le_refl 1)
  | [c, d], _ =>
    rw [List.pairwise_pair]
    exact and_congr (forall_last_pair_iff hle) (forall_last_pair_iff (R := fun x y => y ≤ x) hle)

end Limits

/-! ## Lines -/

namespace Tree

/-- The children of a bound without faults, trivia apart, with its comparisons: a variable that is
free, a variable and a constant in either order, or a variable between two constants. What compares
a constant with the variable is turned around. -/
inductive Line (t : Tree) : List Node → List Condition → Prop where
  | free {x w : Node} (hx : x.kind = .ident) (hw : w.kind = .freeKw) : t.Line [x, w] []
  | after {x o c : Node} {op : Comparison} {v : Binary64} (hx : x.kind = .ident)
      (ho : Comparison.ofKind? o.kind = some op) (hc : c.kind = .constant)
      (hv : t.constantValue? c = some v) : t.Line [x, o, c] [⟨op, v⟩]
  | before {c o x : Node} {op : Comparison} {v : Binary64} (hc : c.kind = .constant)
      (hv : t.constantValue? c = some v) (ho : Comparison.ofKind? o.kind = some op)
      (hx : x.kind = .ident) : t.Line [c, o, x] [⟨op.flipped, v⟩]
  | between {c o x o' c' : Node} {op op' : Comparison} {v v' : Binary64} (hc : c.kind = .constant)
      (hv : t.constantValue? c = some v) (ho : Comparison.ofKind? o.kind = some op)
      (hx : x.kind = .ident) (ho' : Comparison.ofKind? o'.kind = some op')
      (hc' : c'.kind = .constant) (hv' : t.constantValue? c' = some v') :
      t.Line [c, o, x, o', c'] [⟨op.flipped, v⟩, ⟨op', v'⟩]

/-! ## Reading a line -/

section Read

variable {t : Tree} {s : LimitReading} {n : Node}

theorem readLimit_comparison {op : Comparison} (h : Comparison.ofKind? n.kind = some op) :
    t.readLimit s n = { s with op := some op } := by
  rw [readLimit, h]

theorem readLimit_variable (h : n.kind = .ident) : t.readLimit s n = s.onVariable := by
  have hv : n.isVariable = true := by rw [Node.isVariable, h]; rfl
  rw [readLimit, h]
  exact if_pos hv

theorem readLimit_constant (h : n.kind = .constant) :
    t.readLimit s n = s.onConstant (t.constantValue? n) := by
  have hv : ¬ n.isVariable = true := by rw [Node.isVariable, h]; decide
  rw [readLimit, h]
  exact (if_neg hv).trans (if_pos rfl)

/-- Other children do not count. -/
theorem readLimit_other (h : n.kind.isTrivia = true ∨ n.kind = .freeKw) : t.readLimit s n = s := by
  have hkind : ∀ k : Kind, k.isTrivia = true ∨ k = .freeKw → Comparison.ofKind? k = none ∧
      ¬ Grammar.variableFirst.contains k = true ∧ k ≠ .constant := by decide
  obtain ⟨hop, hvariable, hconstant⟩ := hkind _ h
  rw [readLimit, hop]
  exact (if_neg hvariable).trans (if_neg hconstant)

end Read

/-- The children of a node but trivia. -/
theorem limits_eq_foldl (t : Tree) (n : Node) :
    t.limits n = ((n.children.filter fun m => !m.kind.isTrivia).foldl t.readLimit {}).limits := by
  rw [limits, List.foldl_filter]
  congr 2
  funext s m
  by_cases h : m.kind.isTrivia = true
  · simp [h, readLimit_other (.inl h)]
  · simp [h]

/-- The limits of a line are those after its comparisons. -/
theorem Line.limits_eq {t : Tree} {n : Node} {cs : List Condition}
    (h : t.Line (n.children.filter fun m => !m.kind.isTrivia) cs) :
    t.limits n = Limits.ofConditions cs := by
  rw [limits_eq_foldl]
  generalize n.children.filter (fun m => !m.kind.isTrivia) = ns at h
  cases h with
  | free hx hw =>
    simp only [List.foldl_cons, List.foldl_nil, readLimit_variable hx, readLimit_other (.inr hw)]
    rfl
  | after hx ho hc hv =>
    simp only [List.foldl_cons, List.foldl_nil, readLimit_variable hx, readLimit_comparison ho,
      readLimit_constant hc, hv]
    rfl
  | before hc hv ho hx =>
    simp only [List.foldl_cons, List.foldl_nil, readLimit_variable hx, readLimit_comparison ho,
      readLimit_constant hc, hv]
    rfl
  | between hc hv ho hx ho' hc' hv' =>
    simp only [List.foldl_cons, List.foldl_nil, readLimit_variable hx, readLimit_comparison ho,
      readLimit_comparison ho', readLimit_constant hc, readLimit_constant hc', hv, hv']
    rfl

theorem Line.length_le {t : Tree} {ns : List Node} {cs : List Condition} (h : t.Line ns cs) :
    cs.length ≤ 2 := by
  cases h <;> simp

/-- A free variable has no comparisons. -/
theorem Line.eq_nil_of_free {t : Tree} {ns : List Node} {cs : List Condition} (h : t.Line ns cs)
    {w : Node} (hw : w ∈ ns) (hk : w.kind = .freeKw) : cs = [] := by
  have hop : ∀ {o : Node} {op : Comparison}, Comparison.ofKind? o.kind = some op →
      o.kind ≠ .freeKw := by
    intro o op ho hfree
    rw [hfree] at ho
    cases ho
  cases h with
  | free hx hw' => rfl
  | after hx ho hc hv => simp only [List.mem_cons, List.not_mem_nil, or_false] at hw; grind
  | before hc hv ho hx => simp only [List.mem_cons, List.not_mem_nil, or_false] at hw; grind
  | between hc hv ho hx ho' hc' hv' =>
    simp only [List.mem_cons, List.not_mem_nil, or_false] at hw
    grind

end Tree

/-! ## Comparisons, numbers and names, counted -/

/-- What a token adds to the comparisons, the numbers and the names of a line. -/
def Kind.weight (k : Kind) : Nat × Nat × Nat :=
  if k.isComparison then (1, 0, 0)
  else if Grammar.literals.contains k then (0, 1, 0)
  else if k = .ident then (0, 0, 1)
  else 0

theorem Kind.weight_trivia : ∀ {k : Kind}, k.isTrivia = true → k.weight = 0 := by decide

/-- Among the kinds inside a constant only the numbers count. -/
theorem Kind.weight_constant : ∀ {k : Kind}, k.isTrivia = true ∨ k = .plus ∨ k = .minus ∨
    k = .number ∨ k = .infinity ∨ k = .invalidNumber → k.isToken = true ∧
      k.lexedAs.weight = if Grammar.literals.contains k then (0, 1, 0) else 0 := by decide

/-- What weighs nothing may be left out. -/
theorem sum_map_filter {α : Type} {f : α → Nat × Nat × Nat} {p : α → Bool} {l : List α}
    (h : ∀ a ∈ l, p a = false → f a = 0) : ((l.filter p).map f).sum = (l.map f).sum := by
  induction l with
  | nil => rfl
  | cons a l ih =>
    obtain ⟨ha, hl⟩ := List.forall_mem_cons.1 h
    rw [List.map_cons, List.sum_cons, ← ih hl]
    by_cases hp : p a = true
    · rw [List.filter_cons_of_pos hp, List.map_cons, List.sum_cons]
    · rw [List.filter_cons_of_neg hp, ha (by simpa using hp), zero_add]

theorem Kind.weight_comparison {k : Kind} (h : k.isComparison = true) : k.weight = (1, 0, 0) :=
  if_pos h

namespace Production

/-- The words with given numbers of comparisons, numbers and names. -/
def weighing (m : Nat × Nat × Nat) : Language Token := {w | (w.map fun t => t.kind.weight).sum = m}

theorem mul_le_weighing {l l' : Language Token} {m m' : Nat × Nat × Nat} (h : l ≤ weighing m)
    (h' : l' ≤ weighing m') : l * l' ≤ weighing (m + m') := by
  rintro w ⟨u, hu, v, hv, rfl⟩
  change ((u ++ v).map fun t => t.kind.weight).sum = m + m'
  rw [List.map_append, List.sum_append, h hu, h' hv]

theorem kstar_le_weighing {l : Language Token} (h : l ≤ weighing 0) : l∗ ≤ weighing 0 := by
  intro w hw
  obtain ⟨ws, rfl, hws⟩ := Language.mem_kstar.1 hw
  change (ws.flatten.map fun t => t.kind.weight).sum = 0
  rw [List.map_flatten, List.sum_flatten, List.map_map]
  exact List.sum_eq_zero fun m hm => by
    obtain ⟨u, hu, rfl⟩ := List.mem_map.1 hm
    exact h (hws u hu)

theorem single_le_weighing {p : Token → Prop} {m : Nat × Nat × Nat} (h : ∀ t, p t → t.kind.weight = m) :
    single p ≤ weighing m := by
  rintro w ⟨t, ht, rfl⟩
  exact (List.sum_singleton ..).trans (h t ht)

theorem one_le_weighing (k : Kind) : one k ≤ weighing k.weight :=
  single_le_weighing fun _ ht => ht ▸ rfl

theorem comparison_le_weighing : comparison ≤ weighing (1, 0, 0) := by
  refine add_le (add_le (add_le (add_le ?_ ?_) ?_) ?_) ?_ <;> exact one_le_weighing _

theorem constant_le_weighing : constant ≤ weighing (0, 1, 0) := by
  have hsign : sign ≤ weighing 0 := add_le (one_le_weighing .plus) (one_le_weighing .minus)
  have hliteral : literal ≤ weighing (0, 1, 0) :=
    add_le (one_le_weighing .number) (one_le_weighing .infinity)
  exact mul_le_weighing (kstar_le_weighing hsign) hliteral

theorem free_le_weighing : free ≤ weighing (0, 0, 1) :=
  single_le_weighing fun _ ht => ht.1 ▸ rfl

/-- A bound has a number for each comparison, and a name; it has two names if it has no
comparison. -/
theorem bound_weight {w : List Token} (h : w ∈ statement .bound) :
    (w.map fun t => t.kind.weight).sum = (0, 0, 2) ∨
      (w.map fun t => t.kind.weight).sum = (1, 1, 1) ∨
      (w.map fun t => t.kind.weight).sum = (2, 2, 1) := by
  have hname := one_le_weighing .ident
  have hside := mul_le_weighing comparison_le_weighing constant_le_weighing
  rcases h with (h | h) | ⟨u, hu, v, hv, rfl⟩
  · exact .inl (mul_le_weighing hname free_le_weighing h)
  · rw [mul_assoc] at h
    exact .inr (.inl (mul_le_weighing hname hside h))
  · have hleft := mul_le_weighing (mul_le_weighing constant_le_weighing comparison_le_weighing) hname hu
    rcases hv with rfl | hv
    · refine .inr (.inl ?_)
      change ((u ++ []).map fun t : Token => t.kind.weight).sum = _
      rw [List.append_nil]
      exact hleft
    · refine .inr (.inr ?_)
      exact mul_le_weighing le_rfl hside ⟨u, hleft, v, hv, rfl⟩

end Production

namespace Node

/-- The comparisons, the numbers and the names among the leaves of a node. -/
def weight (n : Node) : Nat × Nat × Nat := (n.leaves.map fun l => l.kind.lexedAs.weight).sum

theorem weight_of_isNode {n : Node} (h : n.kind.isNode = true) :
    n.weight = (n.children.map weight).sum := by
  rw [weight, leaves_of_isNode h, List.map_flatMap, List.flatMap_def, List.sum_flatten,
    List.map_map]
  rfl

theorem Fitted.weight_of_isToken {n : Node} (h : n.Fitted) (hk : n.kind.isToken = true) :
    n.weight = n.kind.lexedAs.weight := by
  rw [weight, h.leaves_of_isToken hk]
  exact List.sum_singleton

/-- Only what is not trivia counts. -/
theorem Fitted.weight_contents {n : Node} (h : n.Fitted) (hk : n.kind.isNode = true) :
    n.weight = ((n.children.filter fun m => !m.kind.isTrivia).map weight).sum := by
  rw [weight_of_isNode hk, sum_map_filter]
  intro m hm htrivia
  have hmk : m.kind.isTrivia = true := by simpa using htrivia
  rw [(h.children m hm).weight_of_isToken (Kind.isToken_of_isTrivia hmk),
    Kind.weight_trivia (by rwa [Kind.isTrivia_lexedAs])]

theorem weight_eq_of_holds {n : Node} {ts : List Token} (h : List.Forall₂ Holds n.leaves ts) :
    n.weight = ((significant ts).map fun t => t.kind.weight).sum := by
  have hkinds : n.leaves.map (fun l => l.kind.lexedAs.weight) = ts.map fun t => t.kind.weight := by
    rw [← List.forall₂_eq_eq_eq, List.forall₂_map_left_iff, List.forall₂_map_right_iff]
    exact h.imp fun _ _ hlt => congrArg Kind.weight hlt.kind
  rw [weight, hkinds, significant, sum_map_filter]
  exact fun t _ ht => Kind.weight_trivia (by simpa using ht)

end Node

namespace Schema

/-- Constants hold signs and numbers. -/
theorem constant_le_every : children .constant ≤ every fun k =>
    k = .plus ∨ k = .minus ∨ k = .number ∨ k = .infinity ∨ k = .invalidNumber := by
  refine mul_le_every (kstar_le_every (add_le ?_ ?_)) (optional_le_every (add_le (add_le ?_ ?_) ?_))
    <;> exact one_le_every (by decide)

/-- Bounds stand in sections only. -/
theorem eq_section_of_bound {k : Kind} {w : List Kind} (h : w ∈ children k) (hw : .bound ∈ w) :
    k = .sectionNode := by
  by_contra hk
  have hone : ∀ j : Kind, j ≠ .bound → one j ≤ every (· ≠ .bound) := fun j hj => one_le_every hj
  have hcomparisons : oneOf Grammar.comparisons ≤ every (· ≠ .bound) := by
    refine comparisons_le_every fun j hj => ?_
    rintro rfl
    cases hj
  have hevery : children k ≤ every (· ≠ .bound) := by
    cases k with
    | sectionNode => exact absurd rfl hk
    | errorNode =>
      intro w hw a ha hb
      have htoken := hw a ha
      rw [hb] at htoken
      cases htoken
    | document | endNode | label | objective | constraint | bound | declaration | sosSet | sosEntry
    | expression | term | constant =>
      delta children skipped comparison name
      dsimp only
      repeat' with_reducible first
        | apply mul_le_every
        | apply optional_le_every
        | apply kstar_le_every
        | apply add_le
      all_goals first | exact hone _ (by decide) | exact hcomparisons
    | _ => exact bot_le
  exact hevery h .bound hw rfl

/-- A comparison without faults, or none, behind a variable. -/
def IsSide (w : List Kind) : Prop :=
  w = [] ∨ ∃ o, o.isComparison = true ∧ (w = [o] ∨ w = [o, .constant])

section Faultless

variable {w : List Kind}

theorem mem_name (h : w ∈ name) (hw : ∀ k ∈ w, k ≠ .invalidNumber) : w = [.ident] := by
  rcases h with ⟨k, rfl, rfl⟩ | ⟨k, rfl, rfl⟩
  · rfl
  · exact absurd rfl (hw _ List.mem_cons_self)

theorem mem_skipped (h : w ∈ skipped) (hw : ∀ k ∈ w, k ≠ .errorNode) : w = [] := by
  rcases h with h | ⟨k, rfl, rfl⟩
  · exact h
  · exact absurd rfl (hw _ List.mem_cons_self)

theorem mem_comparisons (h : w ∈ oneOf Grammar.comparisons) :
    ∃ o, o.isComparison = true ∧ w = [o] := by
  obtain ⟨o, ho, rfl⟩ := h
  refine ⟨o, ?_, rfl⟩
  revert ho
  cases o <;> decide

theorem isSide_of_mem (h : w ∈ optional comparison) : IsSide w := by
  rcases h with h | ⟨u, hu, v, hv, rfl⟩
  · exact .inl h
  · obtain ⟨o, ho, rfl⟩ := mem_comparisons hu
    rcases hv with rfl | ⟨k, rfl, rfl⟩
    · exact .inr ⟨o, ho, .inl rfl⟩
    · exact .inr ⟨o, ho, .inr rfl⟩

/-- The children of a bound that holds neither error nodes nor malformed numbers. -/
theorem bound_cases (h : w ∈ children .bound)
    (hw : ∀ k ∈ w, k ≠ .errorNode ∧ k ≠ .invalidNumber) :
    w = [.ident, .freeKw] ∨ (∃ u, IsSide u ∧ w = .ident :: u) ∨ w = [.constant] ∨
      ∃ o, o.isComparison = true ∧
        (w = [.constant, o] ∨ ∃ u, IsSide u ∧ w = .constant :: o :: .ident :: u) := by
  rcases h with (⟨_, ⟨x, hx, _, ⟨k, rfl, rfl⟩, rfl⟩, s, hs, rfl⟩ |
    ⟨_, ⟨x, hx, u, hu, rfl⟩, s, hs, rfl⟩) | ⟨_, ⟨_, ⟨k, rfl, rfl⟩, r, hr, rfl⟩, s, hs, rfl⟩
  all_goals
    obtain rfl := mem_skipped hs fun k hk => (hw k (List.mem_append_right _ hk)).1
    simp only [List.append_nil] at hw ⊢
  · obtain rfl := mem_name hx fun k hk => (hw k (by simp [hk])).2
    exact .inl rfl
  · obtain rfl := mem_name hx fun k hk => (hw k (by simp [hk])).2
    exact .inr (.inl ⟨u, isSide_of_mem hu, rfl⟩)
  · rcases hr with rfl | ⟨o, ho, r, hr, rfl⟩
    · exact .inr (.inr (.inl rfl))
    · obtain ⟨k, hk, rfl⟩ := mem_comparisons ho
      refine .inr (.inr (.inr ⟨k, hk, ?_⟩))
      rcases hr with rfl | ⟨x, hx, u, hu, rfl⟩
      · exact .inl rfl
      · obtain rfl := mem_name hx fun k hk => (hw k (by simp [hk])).2
        exact .inr ⟨u, isSide_of_mem hu, rfl⟩

end Faultless

end Schema

/-! ## The line of a bound -/

theorem Comparison.exists_ofKind {k : Kind} (h : k.isComparison = true) :
    ∃ op, ofKind? k = some op := by
  have hsome : ∀ k : Kind, (ofKind? k).isSome = k.isComparison := by decide
  exact Option.isSome_iff_exists.1 ((hsome k).trans h)

/-- A constant has one number, which can be read, or none. -/
theorem Tree.constant_weight {t : Tree} {c : Node} (hc : c.Fitted) (hconforms : c.Conforms)
    (hk : c.kind = .constant)
    (hread : ∀ m ∈ c.children, m.isLiteral = true → ∃ v, t.literalValue? m = some v) :
    c.weight = 0 ∨ c.weight = (0, 1, 0) ∧ ∃ v, t.constantValue? c = some v := by
  have hnode : c.kind.isNode = true := hk ▸ rfl
  have hone := hconforms.literals_le_one (.inr hk)
  have hkinds : ∀ m ∈ c.children, m.kind.isTrivia = true ∨ m.kind = .plus ∨ m.kind = .minus ∨
      m.kind = .number ∨ m.kind = .infinity ∨ m.kind = .invalidNumber := by
    intro m hm
    exact hconforms.child (p := fun k => k.isTrivia = true ∨ k = .plus ∨ k = .minus ∨ k = .number ∨
      k = .infinity ∨ k = .invalidNumber) hnode (hk ▸ Schema.constant_le_every.trans
      fun w hw k hkw => .inr (hw k hkw)) (fun k h => .inl h) hm
  -- each child weighs what its kind weighs, and only numbers weigh anything
  have hweight : c.weight = (0, (c.children.filter Node.isLiteral).length, 0) := by
    rw [Node.weight_of_isNode hnode]
    have hfit := hc.children
    generalize c.children = ms at hkinds hfit
    clear hone hread hconforms
    induction ms with
    | nil => rfl
    | cons m ms ih =>
      obtain ⟨hm, hms⟩ := List.forall_mem_cons.1 hfit
      obtain ⟨hmk, hmsk⟩ := List.forall_mem_cons.1 hkinds
      obtain ⟨htoken, hw⟩ : _ ∧ m.kind.lexedAs.weight = if m.isLiteral then (0, 1, 0) else 0 :=
        Kind.weight_constant hmk
      rw [List.map_cons, List.sum_cons, ih hmsk hms, hm.weight_of_isToken htoken, hw]
      by_cases hl : m.isLiteral = true
      · rw [List.filter_cons_of_pos hl, if_pos hl, List.length_cons, Nat.add_comm]
        rfl
      · rw [List.filter_cons_of_neg hl, if_neg hl, zero_add]
  rw [hweight]
  rcases Nat.le_one_iff_eq_zero_or_eq_one.1 hone with h | h
  · rw [h]
    exact .inl rfl
  · obtain ⟨m, hm⟩ := List.length_eq_one_iff.1 h
    obtain ⟨hmem, hlit⟩ := List.mem_filter.1 (hm ▸ List.mem_singleton_self m)
    obtain ⟨v, hv⟩ := hread m hmem hlit
    refine .inr ⟨by rw [h], v.withSign (isNegated c), ?_⟩
    rw [constantValue?, literal, literalAmong_eq, hm]
    simp [hv]

/-- **A bound without faults that has a number for each comparison is a line.** -/
theorem Node.Fitted.exists_line {t : Tree} {n : Node} (hfit : n.Fitted) (hk : n.kind = .bound)
    (hconforms : n.Conforms)
    (hfault : ∀ m ∈ n.children, m.kind ≠ .errorNode ∧ m.kind ≠ .invalidNumber)
    (hconstant : ∀ c ∈ n.children, c.kind = .constant →
      c.weight = 0 ∨ c.weight = (0, 1, 0) ∧ ∃ v, t.constantValue? c = some v)
    (hweight : n.weight = (0, 0, 2) ∨ n.weight = (1, 1, 1) ∨ n.weight = (2, 2, 1)) :
    ∃ cs, t.Line (n.children.filter fun m => !m.kind.isTrivia) cs := by
  have hnode : n.kind.isNode = true := hk ▸ rfl
  have hcontents : (n.children.filter fun m => !m.kind.isTrivia).map kind ∈ Schema.children .bound := by
    have hmap := hconforms hnode
    rwa [hk, contents, List.filter_map] at hmap
  rw [hfit.weight_contents hnode] at hweight
  have hmem : ∀ m ∈ n.children.filter fun m => !m.kind.isTrivia, m ∈ n.children :=
    fun m hm => (List.mem_filter.1 hm).1
  generalize n.children.filter (fun m => !m.kind.isTrivia) = ns at hcontents hweight hmem
  have hname : ∀ m ∈ ns, m.kind = .ident → m.weight = (0, 0, 1) := fun m hm hmk => by
    rw [(hfit.children m (hmem m hm)).weight_of_isToken (hmk ▸ rfl), hmk]
    rfl
  have hop : ∀ m ∈ ns, m.kind.isComparison = true →
      m.weight = (1, 0, 0) ∧ ∃ op, Comparison.ofKind? m.kind = some op := by
    intro m hm hmk
    rw [(hfit.children m (hmem m hm)).weight_of_isToken (Kind.isToken_of_isComparison hmk),
      Kind.lexedAs_of_isComparison hmk]
    exact ⟨Kind.weight_comparison hmk, Comparison.exists_ofKind hmk⟩
  have hvalue : ∀ m ∈ ns, m.kind = .constant →
      m.weight = 0 ∨ m.weight = (0, 1, 0) ∧ ∃ v, t.constantValue? m = some v :=
    fun m hm => hconstant m (hmem m hm)
  have hcases := Schema.bound_cases hcontents fun k hk => by
    obtain ⟨m, hm, rfl⟩ := List.mem_map.1 hk
    exact hfault m (hmem m hm)
  -- the counts leave out all cases in which a number or the variable is missing
  rcases hcases with h | ⟨u, rfl | ⟨j, hj, rfl | rfl⟩, h⟩ | h |
    ⟨k, hk, h | ⟨u, rfl | ⟨j, hj, rfl | rfl⟩, h⟩⟩
  all_goals
    simp only [List.map_eq_cons_iff, List.map_eq_nil_iff] at h
  · obtain ⟨x, _, rfl, hx, w, _, rfl, hw, rfl⟩ := h
    exact ⟨_, .free hx hw⟩
  · obtain ⟨x, _, rfl, hx, rfl⟩ := h
    simp [hname x (by simp) hx] at hweight
  · obtain ⟨x, _, rfl, hx, o, _, rfl, rfl, rfl⟩ := h
    simp [hname x (by simp) hx, (hop o (by simp) hj).1] at hweight
  · obtain ⟨x, _, rfl, hx, o, _, rfl, rfl, c, _, rfl, hc, rfl⟩ := h
    obtain ⟨hwo, op, ho⟩ := hop o (by simp) hj
    rcases hvalue c (by simp) hc with hwc | ⟨-, v, hv⟩
    · simp [hname x (by simp) hx, hwo, hwc] at hweight
    · exact ⟨_, .after hx ho hc hv⟩
  · obtain ⟨c, _, rfl, hc, rfl⟩ := h
    rcases hvalue c (by simp) hc with hwc | ⟨hwc, -⟩ <;> simp [hwc, Prod.ext_iff] at hweight
  · obtain ⟨c, _, rfl, hc, o, _, rfl, rfl, rfl⟩ := h
    rcases hvalue c (by simp) hc with hwc | ⟨hwc, -⟩ <;>
      simp [hwc, (hop o (by simp) hk).1] at hweight
  · obtain ⟨c, _, rfl, hc, o, _, rfl, rfl, x, _, rfl, hx, rfl⟩ := h
    obtain ⟨hwo, op, ho⟩ := hop o (by simp) hk
    rcases hvalue c (by simp) hc with hwc | ⟨-, v, hv⟩
    · simp [hname x (by simp) hx, hwo, hwc] at hweight
    · exact ⟨_, .before hc hv ho hx⟩
  · obtain ⟨c, _, rfl, hc, o, _, rfl, rfl, x, _, rfl, hx, o', _, rfl, rfl, rfl⟩ := h
    rcases hvalue c (by simp) hc with hwc | ⟨hwc, -⟩ <;>
      simp [hname x (by simp) hx, hwc, (hop o (by simp) hk).1, (hop o' (by simp) hj).1] at hweight
  · obtain ⟨c, _, rfl, hc, o, _, rfl, rfl, x, _, rfl, hx, o', _, rfl, rfl, c', _, rfl, hc', rfl⟩ := h
    obtain ⟨hwo, op, ho⟩ := hop o (by simp) hk
    obtain ⟨hwo', op', ho'⟩ := hop o' (by simp) hj
    rcases hvalue c (by simp) hc with hwc | ⟨hwc, v, hv⟩ <;>
      rcases hvalue c' (by simp) hc' with hwc' | ⟨hwc', v', hv'⟩
    all_goals first
      | exact ⟨_, .between hc hv ho hx ho' hc' hv'⟩
      | simp [hname x (by simp) hx, hwo, hwo', hwc, hwc'] at hweight

/-! ## Bounds of a text -/

/-- A statement around a bound is read by the rule for bounds. -/
theorem Rule.Seat.rule_eq {i j : Input} {rule : StatementRule} {pre : Output}
    {post : Input → Output} {g₁ g₂ cs : List Skeleton}
    (h : Seat i rule j pre post g₁ (.node .bound cs) g₂) : rule = .bound := by
  obtain ⟨⟨f, xs, hreading, hkinds, -⟩, -⟩ := runs_statement rule j h.proper h.inside
  obtain rfl := Skeleton.eventsAll_injective (hreading.events.symm.trans h.forest)
  have hmem : .bound ∈ Skeleton.kinds (g₁ ++ .node .bound cs :: g₂) := by
    rw [Skeleton.kinds]
    simp [Skeleton.kind, Kind.isTrivia]
  have hone : ∀ k : Kind, (k = .bound → rule = .bound) →
      Schema.one k ≤ every fun k => k = .bound → rule = .bound := fun k hk => Schema.one_le_every hk
  have hlines : Schema.lines (Schema.statements rule) ≤ every fun k => k = .bound → rule = .bound := by
    refine kstar_le_every (add_le (add_le (hone _ Kind.noConfusion) (hone _ Kind.noConfusion)) ?_)
    cases rule with
    | bound => exact hone _ fun _ => rfl
    | implicit | sos => exact add_le (hone _ Kind.noConfusion) (hone _ Kind.noConfusion)
    | objective | constraint | declaration => exact hone _ Kind.noConfusion
  exact hlines hkinds .bound hmem rfl

/-- The place of a bound in the tree of a text: its rule is the one for bounds. -/
theorem exists_bound_cursor (text : Text) (options : Options) {n : Node}
    (hn : n ∈ (parse text options).tree.root.descendants) (hk : n.kind = .bound) :
    ∃ c : Cursor, c.focus = n ∧ c.root = (parse text options).tree.root ∧
      Parse.isOuterStatement c = true ∧ Parse.ruleAt? c = some .bound := by
  obtain ⟨⟨m, path⟩, rfl, hroot⟩ := Tree.exists_cursor _ hn
  have hp := parse_faithful text options
  obtain ⟨f, he, hf⟩ := hp.tree
  cases path with
  | nil =>
    have hdocument := hf.kind
    rw [← hroot] at hdocument
    exact absurd (hdocument.symm.trans hk) Kind.noConfusion
  | cons k ks =>
    have hparent : k.plug m ∈ (parse text options).tree.root.descendants := by
      rw [← hroot, Cursor.root_cons]
      exact Cursor.mem_descendants_root (Node.mem_descendants_self _)
    have hkind : k.kind = .sectionNode ∨ k.kind = .document := by
      by_cases hd : k.kind = .document
      · exact .inr hd
      · obtain ⟨hfit, hbelow⟩ := parse_nodes text options hparent hd
        have hchild := k.mem_children_plug m
        have hconforms := (hbelow _ (Node.mem_descendants_self _)).1
          (hfit.tiled (k.children_plug_ne m)).2
        refine .inl (Schema.eq_section_of_bound hconforms (List.mem_filter.2 ⟨?_, rfl⟩))
        exact List.mem_map.2 ⟨m, hchild, hk⟩
    have hout : Parse.isOuterStatement ⟨m, k :: ks⟩ = true := by
      rw [Parse.isOuterStatement, Bool.and_eq_true]
      refine ⟨hk ▸ rfl, ?_⟩
      simpa using hkind
    have hplaced := Cursor.placed_of_root hf hroot (List.cons_ne_nil k ks)
    obtain ⟨rule, hrule, j, pre, post, g₁, g₂, hseat, -⟩ :=
      hplaced.seat (Input.proper_ofText ..) he hout
    have hbound : m.skeleton = .node .bound (m.children.map Node.skeleton) := by
      rw [← hk]
      exact Node.skeleton_of_isNode (hk ▸ rfl)
    rw [show (⟨m, k :: ks⟩ : Cursor).focus.skeleton = m.skeleton from rfl, hbound] at hseat
    exact ⟨_, rfl, hroot, hout, hseat.rule_eq ▸ hrule⟩

/-- **The limits of a bound without faults.** The bound is a line, its limits are the last ones that
its comparisons set on either side, and a variable that is free has none. They are the conjunction of
the comparisons if and only if no comparison is followed by one that is less tight on the same
side. -/
theorem limits_parse (text : Text) (options : Options) {n : Node}
    (hn : n ∈ (parse text { options with maxErrors := none }).tree.root.descendants)
    (hk : n.kind = .bound)
    (hclean : ∀ d ∈ (parse text { options with maxErrors := none }).diagnostics,
      n.span.contains d.span = false) :
    let t := (parse text { options with maxErrors := none }).tree
    ∃ cs, t.Line (n.children.filter fun m => !m.kind.isTrivia) cs ∧
      (t.limits n).lower = (cs.filter (·.op.isLower)).getLast?.map Condition.value ∧
      (t.limits n).upper = (cs.filter (·.op.isUpper)).getLast?.map Condition.value ∧
      ((t.bound n).free = true → t.limits n = {}) ∧
      ((t.limits n).Conjoins cs ↔ cs.Pairwise Condition.Tightens) := by
  intro t
  obtain ⟨c, rfl, hroot, hout, hrule⟩ := exists_bound_cursor text _ hn hk
  obtain ⟨hfit, hbelow⟩ := parse_nodes text _ hn (by rw [hk]; exact Kind.noConfusion)
  obtain ⟨hfault, ts, hts, hword⟩ := (parse_faithful text { options with maxErrors := none }).statement_clean
    rfl hroot hout hrule StatementRule.noConfusion hclean
  have hweight := Production.bound_weight hword
  rw [← Node.weight_eq_of_holds hts] at hweight
  have hconstant : ∀ m ∈ c.focus.children, m.kind = .constant →
      m.weight = 0 ∨ m.weight = (0, 1, 0) ∧ ∃ v, t.constantValue? m = some v := by
    intro m hm hmk
    have hself := Node.mem_descendants_child hm m.mem_descendants_self
    refine t.constant_weight (hfit.children m hm) (hbelow m hself).1 hmk fun l hl hlit => ?_
    have hdeep := Node.mem_descendants_child hm (Node.mem_descendants_child hl l.mem_descendants_self)
    obtain ⟨v, hv, -⟩ := exists_literalValue text _ (hbelow l hdeep).2 hlit
    exact ⟨v, hv⟩
  obtain ⟨cs, hline⟩ := hfit.exists_line hk (hbelow _ (Node.mem_descendants_self _)).1
    (fun m hm => hfault m (Node.mem_descendants_child hm m.mem_descendants_self)) hconstant hweight
  have hlimits := hline.limits_eq
  refine ⟨cs, hline, ?_, ?_, fun hfree => ?_, ?_⟩
  · rw [hlimits, Limits.ofConditions_eq]
  · rw [hlimits, Limits.ofConditions_eq]
  · obtain ⟨w, hw⟩ := Option.isSome_iff_exists.1 hfree
    have hwk : w.kind = .freeKw := by simpa using List.find?_some hw
    have hmem : w ∈ c.focus.children.filter fun m => !m.kind.isTrivia :=
      List.mem_filter.2 ⟨List.mem_of_find?_eq_some hw, by rw [hwk]; rfl⟩
    rw [hlimits, hline.eq_nil_of_free hmem hwk]
    rfl
  · rw [hlimits]
    exact Limits.conjoins_iff hline.length_le

/-- A variable between two numbers. -/
theorem limits_parse_between :
    ∃ n ∈ (parse "Bounds\n 2 <= x <= 5\nEnd".toList {}).tree.root.descendants, n.kind = .bound ∧
      (parse "Bounds\n 2 <= x <= 5\nEnd".toList {}).tree.limits n =
        ⟨some ⟨false, 0x4000000000000000⟩, some ⟨false, 0x4014000000000000⟩⟩ ∧
      ∃ cs, (parse "Bounds\n 2 <= x <= 5\nEnd".toList {}).tree.Line
          (n.children.filter fun m => !m.kind.isTrivia) cs ∧
        (((parse "Bounds\n 2 <= x <= 5\nEnd".toList {}).tree.limits n).Conjoins cs ↔
          cs.Pairwise Condition.Tightens) := by
  have h : ∃ n ∈ (parse "Bounds\n 2 <= x <= 5\nEnd".toList {}).tree.root.descendants,
      n.kind = .bound ∧ (parse "Bounds\n 2 <= x <= 5\nEnd".toList {}).tree.limits n =
        ⟨some ⟨false, 0x4000000000000000⟩, some ⟨false, 0x4014000000000000⟩⟩ ∧
      ∀ d ∈ (parse "Bounds\n 2 <= x <= 5\nEnd".toList {}).diagnostics,
        n.span.contains d.span = false := by
    decide +kernel
  obtain ⟨n, hn, hk, hlimits, hclean⟩ := h
  obtain ⟨cs, hline, -, -, -, hconjoins⟩ := limits_parse _ {} hn hk hclean
  exact ⟨n, hn, hk, hlimits, cs, hline, hconjoins⟩

/-- Two lower limits, of which the second is less tight: it overrides the first, so that the limits
allow numbers that the line rules out. -/
theorem limits_parse_loose :
    ∃ n ∈ (parse "Bounds\n 5 <= x >= 3\nEnd".toList {}).tree.root.descendants, n.kind = .bound ∧
      (parse "Bounds\n 5 <= x >= 3\nEnd".toList {}).diagnostics = [] ∧
      (parse "Bounds\n 5 <= x >= 3\nEnd".toList {}).tree.Line
        (n.children.filter fun m => !m.kind.isTrivia)
        [⟨.ge, ⟨false, 0x4014000000000000⟩⟩, ⟨.ge, ⟨false, 0x4008000000000000⟩⟩] ∧
      ((parse "Bounds\n 5 <= x >= 3\nEnd".toList {}).tree.limits n).lower =
        some ⟨false, 0x4008000000000000⟩ ∧
      ¬ ((parse "Bounds\n 5 <= x >= 3\nEnd".toList {}).tree.limits n).Conjoins
        [⟨.ge, ⟨false, 0x4014000000000000⟩⟩, ⟨.ge, ⟨false, 0x4008000000000000⟩⟩] := by
  have h : ∃ n ∈ (parse "Bounds\n 5 <= x >= 3\nEnd".toList {}).tree.root.descendants,
      n.kind = .bound ∧ (parse "Bounds\n 5 <= x >= 3\nEnd".toList {}).diagnostics = [] ∧
      ((n.children.filter fun m => !m.kind.isTrivia).map fun m =>
        (m.kind, (parse "Bounds\n 5 <= x >= 3\nEnd".toList {}).tree.constantValue? m)) =
        [(.constant, some ⟨false, 0x4014000000000000⟩), (.ltEq, none), (.ident, none),
          (.gtEq, none), (.constant, some ⟨false, 0x4008000000000000⟩)] := by
    decide +kernel
  obtain ⟨n, hn, hk, hclean, hchildren⟩ := h
  have hline : (parse "Bounds\n 5 <= x >= 3\nEnd".toList {}).tree.Line
      (n.children.filter fun m => !m.kind.isTrivia)
      [⟨.ge, ⟨false, 0x4014000000000000⟩⟩, ⟨.ge, ⟨false, 0x4008000000000000⟩⟩] := by
    generalize n.children.filter (fun m => !m.kind.isTrivia) = ns at hchildren
    simp only [List.map_eq_cons_iff, List.map_eq_nil_iff, Prod.mk.injEq] at hchildren
    obtain ⟨c, _, rfl, ⟨hc, hv⟩, o, _, rfl, ⟨ho, -⟩, x, _, rfl, ⟨hx, -⟩, o', _, rfl, ⟨ho', -⟩,
      c', _, rfl, ⟨hc', hv'⟩, rfl⟩ := hchildren
    have hle : Comparison.ofKind? o.kind = some .le := ho ▸ rfl
    have hge : Comparison.ofKind? o'.kind = some .ge := ho' ▸ rfl
    exact .between hc hv hle hx hge hc' hv'
  have hlower : ((parse "Bounds\n 5 <= x >= 3\nEnd".toList {}).tree.limits n).lower =
      some ⟨false, 0x4008000000000000⟩ := by
    rw [hline.limits_eq]
    rfl
  refine ⟨n, hn, hk, hclean, hline, hlower, fun h => ?_⟩
  have hle := h.greatest _ hlower _ List.mem_cons_self rfl
  exact absurd hle (by rw [Binary64.le_iff]; decide)

end LpFormat
