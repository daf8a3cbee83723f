import LpFormat.Edit
import Mathlib

/-!
# Offsets and the characters between them

A boundary of a text is the same as a way to cut the text in two, and an edit that applies cuts it
in three.

* `Text.takeBytes_append`, `Text.dropBytes_append`, `Text.slice_append`: cutting at the end of a
  known beginning;
* **`Text.isBoundary_iff`**: the offsets at which a text can be cut;
* `Edit.apply_eq_ok_iff`: the texts before and after an edit;
* `shiftOffset_eq`, `Span.shift_eq`: shifts that do not run below zero.
-/

namespace LpFormat

namespace Text

theorem takeBytes_zero (t : Text) : t.takeBytes 0 = [] := by
  cases t <;> rfl

theorem dropBytes_zero (t : Text) : t.dropBytes 0 = t := by
  cases t <;> rfl

theorem takeBytes_cons {n : Nat} (hn : 0 < n) (c : Char) (t : Text) :
    takeBytes n (c :: t) = c :: takeBytes (n - c.utf8Size) t := by
  obtain ⟨n, rfl⟩ := Nat.exists_eq_add_of_lt hn
  rw [Nat.zero_add, takeBytes]

theorem dropBytes_cons {n : Nat} (hn : 0 < n) (c : Char) (t : Text) :
    dropBytes n (c :: t) = dropBytes (n - c.utf8Size) t := by
  obtain ⟨n, rfl⟩ := Nat.exists_eq_add_of_lt hn
  rw [Nat.zero_add, dropBytes]

theorem takeBytes_append (a b : Text) : takeBytes a.byteSize (a ++ b) = a := by
  induction a with
  | nil => exact takeBytes_zero b
  | cons c a ih =>
    have hc := c.utf8Size_pos
    rw [byteSize_cons, List.cons_append, takeBytes_cons (by omega), Nat.add_sub_cancel_left, ih]

theorem dropBytes_append (a b : Text) : dropBytes a.byteSize (a ++ b) = b := by
  induction a with
  | nil => exact dropBytes_zero b
  | cons c a ih =>
    have hc := c.utf8Size_pos
    rw [byteSize_cons, List.cons_append, dropBytes_cons (by omega), Nat.add_sub_cancel_left, ih]

/-- The part of a text between two cuts. -/
theorem slice_append (a b c : Text) :
    slice (a ++ b ++ c) ⟨a.byteSize, a.byteSize + b.byteSize⟩ = b := by
  rw [slice, List.append_assoc, dropBytes_append, Nat.add_sub_cancel_left, takeBytes_append]

theorem takeBytes_append_dropBytes (n : Nat) (t : Text) : takeBytes n t ++ dropBytes n t = t := by
  induction t generalizing n with
  | nil => cases n <;> rfl
  | cons c t ih =>
    cases n with
    | zero => rfl
    | succ n =>
      rw [takeBytes, dropBytes, List.cons_append, ih]

theorem byteSize_takeBytes_of_isBoundary {t : Text} {n : Nat} (h : t.isBoundary n = true) :
    (t.takeBytes n).byteSize = n := by
  induction t generalizing n with
  | nil =>
    cases n with
    | zero => rfl
    | succ n => simp [isBoundary] at h
  | cons c t ih =>
    cases n with
    | zero => rfl
    | succ n =>
      simp only [isBoundary, Bool.and_eq_true, decide_eq_true_eq] at h
      rw [takeBytes, byteSize_cons, ih h.2]
      omega

theorem isBoundary_append (a b : Text) : (a ++ b).isBoundary a.byteSize = true := by
  induction a with
  | nil => cases b <;> rfl
  | cons c a ih =>
    have hc := c.utf8Size_pos
    obtain ⟨k, hk⟩ := Nat.exists_eq_add_of_lt (show 0 < c.utf8Size + byteSize a by omega)
    rw [byteSize_cons, hk, Nat.zero_add, List.cons_append, isBoundary, Bool.and_eq_true,
      decide_eq_true_eq, show k + 1 - c.utf8Size = byteSize a by omega]
    exact ⟨by omega, ih⟩

/-- **A boundary is a place where the text can be cut in two.** -/
theorem isBoundary_iff {t : Text} {n : Nat} :
    t.isBoundary n = true ↔ ∃ a b, t = a ++ b ∧ a.byteSize = n := by
  constructor
  · intro h
    exact ⟨_, _, (takeBytes_append_dropBytes n t).symm, byteSize_takeBytes_of_isBoundary h⟩
  · rintro ⟨a, b, rfl, rfl⟩
    exact isBoundary_append a b

theorem byteSize_eq_zero {t : Text} : t.byteSize = 0 ↔ t = [] := by
  cases t with
  | nil => simp
  | cons c t =>
    have hc := c.utf8Size_pos
    simp only [byteSize_cons, reduceCtorEq, iff_false]
    omega

/-- Two cuts of one text, the first not after the second, cut it in three. -/
theorem exists_middle {a b c d : Text} (h : a ++ b = c ++ d) (hle : a.byteSize ≤ c.byteSize) :
    ∃ m, c = a ++ m ∧ b = m ++ d := by
  rcases List.append_eq_append_iff.1 h with ⟨m, rfl, rfl⟩ | ⟨m, rfl, rfl⟩
  · exact ⟨m, rfl, rfl⟩
  · have : m = [] := byteSize_eq_zero.1 (by rw [byteSize_append] at hle; omega)
    subst this
    exact ⟨[], by simp, by simp⟩

theorem append_inj_of_byteSize {a b c d : Text} (h : a ++ b = c ++ d)
    (hs : a.byteSize = c.byteSize) : a = c ∧ b = d := by
  obtain ⟨m, rfl, rfl⟩ := exists_middle h (Nat.le_of_eq hs)
  have : m = [] := byteSize_eq_zero.1 (by rw [byteSize_append] at hs; omega)
  subst this
  simp

end Text

/-! ## Shifts -/

theorem shiftOffset_eq {a b : Nat} {δ : Int} (h : (b : Int) = a + δ) : shiftOffset a δ = b := by
  rw [shiftOffset]
  omega

theorem Span.shift_eq {s t : Span} {δ : Int} (h₁ : (t.start : Int) = s.start + δ)
    (h₂ : (t.stop : Int) = s.stop + δ) : s.shift δ = t := by
  rw [Span.shift, shiftOffset_eq h₁, shiftOffset_eq h₂]

theorem Span.stretch_eq {s t : Span} {δ : Int} (h₁ : t.start = s.start)
    (h₂ : (t.stop : Int) = s.stop + δ) : s.stretch δ = t := by
  rw [Span.stretch, shiftOffset_eq h₂, ← h₁]

/-! ## Edits -/

namespace Edit

/-- The part of a text that an edit replaces lies between a beginning and a rest. -/
structure Cuts (e : Edit) (text a m z : Text) : Prop where
  eq : text = a ++ m ++ z
  start : e.span.start = a.byteSize
  stop : e.span.stop = a.byteSize + m.byteSize

theorem Cuts.delta_eq {e : Edit} {text a m z : Text} (h : e.Cuts text a m z) :
    e.delta = (e.insert.byteSize : Int) - m.byteSize := by
  rw [delta, h.start, h.stop, Nat.add_sub_cancel_left]

/-- **An edit applies to a text if and only if its span can be cut out of it.** -/
theorem apply_eq_ok_iff {e : Edit} (he : e.span.start ≤ e.span.stop) {text new : Text} :
    e.apply text = .ok new ↔ ∃ a m z, e.Cuts text a m z ∧ new = a ++ e.insert ++ z := by
  constructor
  · intro h
    rw [apply, error?] at h
    split at h
    · simp at h
    · rename_i hnone
      split_ifs at hnone with h₁ h₂ h₃
      rw [Bool.not_eq_true, Bool.not_eq_false'] at h₂ h₃
      obtain ⟨a, b, hab, ha⟩ := Text.isBoundary_iff.1 h₂
      obtain ⟨c, z, hcz, hc⟩ := Text.isBoundary_iff.1 h₃
      obtain ⟨m, rfl, rfl⟩ := Text.exists_middle (hab.symm.trans hcz) (by omega)
      refine ⟨a, m, z, ⟨hcz, ha.symm, by rw [← hc, Text.byteSize_append]⟩, ?_⟩
      rw [Except.ok.injEq, ← ha, ← hc] at h
      rw [← h, hab, Text.takeBytes_append, ← hab, hcz, Text.dropBytes_append]
  · rintro ⟨a, m, z, hcut, rfl⟩
    have hb₁ : text.isBoundary e.span.start = true := by
      rw [hcut.start, hcut.eq, List.append_assoc]
      exact Text.isBoundary_append _ _
    have hb₂ : text.isBoundary e.span.stop = true := by
      rw [hcut.stop, hcut.eq, ← Text.byteSize_append]
      exact Text.isBoundary_append _ _
    have hsize : ¬ text.byteSize < e.span.stop := by
      rw [hcut.stop, hcut.eq, Text.byteSize_append, Text.byteSize_append]
      omega
    have herr : e.error? text = none := by
      rw [error?, if_neg hsize, if_neg (by simp [hb₁]), if_neg (by simp [hb₂])]
    have h₁ : text.takeBytes e.span.start = a := by
      rw [hcut.start, hcut.eq, List.append_assoc, Text.takeBytes_append]
    have h₂ : text.dropBytes e.span.stop = z := by
      rw [hcut.stop, hcut.eq, ← Text.byteSize_append, Text.dropBytes_append]
    rw [apply, herr]
    simp only [h₁, h₂]

end Edit

end LpFormat
