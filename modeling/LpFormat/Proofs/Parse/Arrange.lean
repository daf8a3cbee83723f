import LpFormat.Diagnostic
import Mathlib

/-!
# Diagnostics in reported order

Sorting is stable, so an arranged list is determined by the diagnostics of every single span, each in
the order found.

* `Diagnostic.sorted`: the reported order before the cap;
* `Diagnostic.filter_sorted`, **`Diagnostic.sorted_congr`**: sorting and the diagnostics of one span;
* `Diagnostic.map_sorted`, `Diagnostic.notAfter_shiftFrom`: sorting and maps that keep the order of
  spans;
* `Diagnostic.arrange_congr`, `Diagnostic.arrange_eq_sorted`: the cap.
-/

namespace LpFormat.Diagnostic

/-- Diagnostics in reported order, all of them. -/
def sorted (ds : List Diagnostic) : List Diagnostic := ds.mergeSort notAfter

theorem notAfter_iff {a b : Diagnostic} : notAfter a b = true ↔
    a.span.start < b.span.start ∨ a.span.start = b.span.start ∧ a.span.stop ≤ b.span.stop := by
  simp [notAfter]

theorem notAfter_trans (a b c : Diagnostic) (hab : notAfter a b = true) (hbc : notAfter b c = true) :
    notAfter a c = true := by
  rw [notAfter_iff] at *
  omega

theorem notAfter_total (a b : Diagnostic) : (notAfter a b || notAfter b a) = true := by
  rw [Bool.or_eq_true, notAfter_iff, notAfter_iff]
  omega

theorem span_eq_of_notAfter {a b : Diagnostic} (hab : notAfter a b = true)
    (hba : notAfter b a = true) : a.span = b.span := by
  rw [notAfter_iff] at *
  obtain ⟨_, ⟨s, t⟩⟩ := a
  obtain ⟨_, ⟨u, v⟩⟩ := b
  simp only [Span.mk.injEq] at *
  omega

theorem pairwise_sorted (ds : List Diagnostic) :
    (sorted ds).Pairwise fun a b => notAfter a b = true :=
  List.pairwise_mergeSort notAfter_trans notAfter_total ds

theorem sorted_perm (ds : List Diagnostic) : (sorted ds).Perm ds := List.mergeSort_perm ds notAfter

/-- Whether a diagnostic is about a given span. -/
def isAt (s : Span) (d : Diagnostic) : Bool := d.span == s

/-- The diagnostics of one span stay in the order in which they were found. -/
theorem filter_isAt_sorted (s : Span) (ds : List Diagnostic) :
    (sorted ds).filter (isAt s) = ds.filter (isAt s) := by
  have hpairwise : (ds.filter (isAt s)).Pairwise fun a b => notAfter a b = true := by
    refine List.Pairwise.imp_of_mem (fun {a b} ha hb _ => ?_) (List.pairwise_of_forall fun _ _ => trivial)
    have ha' : a.span = s := by simpa [isAt] using (List.mem_filter.1 ha).2
    have hb' : b.span = s := by simpa [isAt] using (List.mem_filter.1 hb).2
    rw [notAfter_iff, ha', hb']
    omega
  have hsub := (List.sublist_mergeSort notAfter_trans notAfter_total hpairwise
    List.filter_sublist).filter (isAt s)
  rw [List.filter_filter] at hsub
  simp only [Bool.and_self] at hsub
  exact (hsub.eq_of_length ((sorted_perm ds).filter _).length_eq.symm).symm

/-- Two lists in order that agree on every span are equal. -/
theorem eq_of_pairwise {ds es : List Diagnostic} (hd : ds.Pairwise fun a b => notAfter a b = true)
    (he : es.Pairwise fun a b => notAfter a b = true)
    (h : ∀ s, ds.filter (isAt s) = es.filter (isAt s)) : ds = es := by
  induction ds generalizing es with
  | nil =>
    cases es with
    | nil => rfl
    | cons e es =>
      have := h e.span
      rw [List.filter_nil, List.filter_cons_of_pos (by simp [isAt])] at this
      cases this
  | cons d ds ih =>
    have hself := h d.span
    rw [List.filter_cons_of_pos (by simp [isAt])] at hself
    cases es with
    | nil => cases hself
    | cons e es =>
      -- both heads come first in the other list as well, so they are about one span
      have hde : d.span = e.span := by
        have hd' : d ∈ e :: es := List.mem_of_mem_filter (hself ▸ List.mem_cons_self)
        have he' : e ∈ d :: ds := by
          have := h e.span
          rw [List.filter_cons_of_pos (a := e) (by simp [isAt])] at this
          exact List.mem_of_mem_filter (this ▸ List.mem_cons_self)
        rcases List.mem_cons.1 hd' with rfl | hd'
        · rfl
        rcases List.mem_cons.1 he' with rfl | he'
        · rfl
        exact span_eq_of_notAfter ((List.pairwise_cons.1 hd).1 e he')
          ((List.pairwise_cons.1 he).1 d hd')
      rw [List.filter_cons_of_pos (by simp [isAt, hde])] at hself
      obtain ⟨rfl, _⟩ := List.cons.inj hself
      refine congrArg _ (ih (List.pairwise_cons.1 hd).2 (List.pairwise_cons.1 he).2 fun s => ?_)
      have := h s
      by_cases hs : isAt s d = true
      · rw [List.filter_cons_of_pos hs, List.filter_cons_of_pos hs] at this
        exact (List.cons.inj this).2
      · rwa [List.filter_cons_of_neg hs, List.filter_cons_of_neg hs] at this

/-- **The reported order is determined by the diagnostics of every single span.** -/
theorem sorted_congr {ds es : List Diagnostic}
    (h : ∀ s, ds.filter (isAt s) = es.filter (isAt s)) : sorted ds = sorted es := by
  refine eq_of_pairwise (pairwise_sorted ds) (pairwise_sorted es) fun s => ?_
  rw [filter_isAt_sorted, filter_isAt_sorted, h]

theorem filter_sorted (p : Diagnostic → Bool) (ds : List Diagnostic) :
    (sorted ds).filter p = sorted (ds.filter p) := by
  refine eq_of_pairwise ((pairwise_sorted ds).filter p) (pairwise_sorted _) fun s => ?_
  rw [filter_isAt_sorted, List.filter_filter, List.filter_filter]
  simp only [Bool.and_comm]
  rw [← List.filter_filter, ← List.filter_filter, filter_isAt_sorted]

theorem map_sorted {f : Diagnostic → Diagnostic} {ds : List Diagnostic}
    (h : ∀ a ∈ ds, ∀ b ∈ ds, notAfter (f a) (f b) = notAfter a b) :
    (sorted ds).map f = sorted (ds.map f) :=
  List.map_mergeSort fun a ha b hb => (h a ha b hb).symm

/-- A diagnostic starts before a place or at its end or later. -/
structure Beside (lo hi : Nat) (d : Diagnostic) : Prop where
  le : d.span.start ≤ d.span.stop
  apart : d.span.start < lo ∨ hi ≤ d.span.start

/-- Moving what starts after a place keeps the order of all that is beside it. -/
theorem notAfter_shiftFrom {lo hi : Nat} {δ : Int} (hle : lo ≤ hi) (hδ : (lo : Int) ≤ hi + δ)
    {a b : Diagnostic} (ha : a.Beside lo hi) (hb : b.Beside lo hi) :
    notAfter (a.shiftFrom hi δ) (b.shiftFrom hi δ) = notAfter a b := by
  obtain ⟨_, ⟨s, t⟩⟩ := a
  obtain ⟨_, ⟨u, v⟩⟩ := b
  obtain ⟨ha₁, ha₂⟩ := ha
  obtain ⟨hb₁, hb₂⟩ := hb
  rw [Bool.eq_iff_iff, notAfter_iff, notAfter_iff]
  simp only [shiftFrom] at *
  split_ifs <;> simp only [Span.shift, shiftOffset] <;> omega

/-! ## The cap -/

theorem arrange_eq (cap : Option Nat) (ds : List Diagnostic) :
    arrange cap ds = match cap with
      | some n => (sorted ds).take n
      | none => sorted ds := rfl

theorem arrange_congr {cap : Option Nat} {ds es : List Diagnostic} (h : sorted ds = sorted es) :
    arrange cap ds = arrange cap es := by
  rw [arrange_eq, arrange_eq, h]

theorem mem_of_mem_arrange {cap : Option Nat} {ds : List Diagnostic} {d : Diagnostic}
    (h : d ∈ arrange cap ds) : d ∈ ds := by
  rw [← (sorted_perm ds).mem_iff]
  cases cap with
  | none => exact h
  | some n => exact List.mem_of_mem_take h

/-- A cap that is not reached cuts nothing off. -/
theorem arrange_eq_sorted {cap : Option Nat} {ds : List Diagnostic}
    (h : (cap.any fun n => decide (n ≤ (arrange cap ds).length)) = false) :
    arrange cap ds = sorted ds := by
  cases cap with
  | none => rfl
  | some n =>
    simp only [arrange_eq, Option.any_some, decide_eq_false_iff_not, List.length_take] at h
    change (sorted ds).take n = sorted ds
    refine List.take_of_length_le ?_
    omega

/-- As many diagnostics fit under a cap that was not reached by them. -/
theorem arrange_of_length_eq {cap : Option Nat} {ds es : List Diagnostic}
    (h : (cap.any fun n => decide (n ≤ ds.length)) = false) (hl : es.length = ds.length) :
    arrange cap es = sorted es := by
  cases cap with
  | none => rfl
  | some n =>
    simp only [Option.any_some, decide_eq_false_iff_not] at h
    change (sorted es).take n = sorted es
    refine List.take_of_length_le ?_
    rw [(sorted_perm es).length_eq, hl]
    omega

end LpFormat.Diagnostic
