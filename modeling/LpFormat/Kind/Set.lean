import LpFormat.Kind

/-!
# Sets of kinds

A `KindSet` is given by its membership test, so two sets with the same members are equal.

* `KindSet`, `KindSet.ofList`, `KindSet.union`, `KindSet.toList` (members in the order of
  `Kind.all`);
* equality is decided by testing every kind.
-/

namespace LpFormat

/-- A set of kinds. -/
@[ext]
structure KindSet where
  contains : Kind → Bool

namespace KindSet

instance : EmptyCollection KindSet := ⟨⟨fun _ => false⟩⟩

instance : Membership Kind KindSet := ⟨fun s k => s.contains k = true⟩

instance (k : Kind) (s : KindSet) : Decidable (k ∈ s) :=
  inferInstanceAs (Decidable (s.contains k = true))

/-- The set of the kinds in a list; repetitions do not matter. -/
def ofList (ks : List Kind) : KindSet := ⟨fun k => ks.contains k⟩

/-- Members of either set. -/
def union (a b : KindSet) : KindSet := ⟨fun k => a.contains k || b.contains k⟩

/-- The members in their fixed order. -/
def toList (s : KindSet) : List Kind := Kind.all.filter s.contains

theorem ext_iff_all {a b : KindSet} :
    a = b ↔ ∀ k ∈ Kind.all, a.contains k = b.contains k := by
  constructor
  · rintro rfl _ _
    rfl
  · intro h
    ext k
    rw [h k k.mem_all]

instance : DecidableEq KindSet := fun _ _ => decidable_of_iff _ ext_iff_all.symm

@[simp]
theorem contains_union (a b : KindSet) (k : Kind) :
    (a.union b).contains k = (a.contains k || b.contains k) := rfl

@[simp]
theorem contains_ofList (ks : List Kind) (k : Kind) :
    (ofList ks).contains k = ks.contains k := rfl

theorem mem_toList {s : KindSet} {k : Kind} : k ∈ s.toList ↔ k ∈ s := by
  rw [toList, List.mem_filter]
  exact ⟨fun h => h.2, fun h => ⟨k.mem_all, h⟩⟩

end KindSet

end LpFormat
