import LpFormat.Proofs.Text.Bytes

/-!
# Operations that can fail

A span must not end before it starts, an offset must be held by 32 bits, a text is cut between two
characters, an index lies within its list. Here each operation tests its condition and fails with a
`Fault` where the condition does not hold.

* `Fault`, `Checked`: what can go wrong, and computations that can;
* `Checked.limit`, `Checked.span`, `Checked.offset`, `Checked.shift`, `Checked.shiftSpan`,
  `Checked.stretchSpan`;
* `Checked.cut`: a part of a text; `Checked.get`, `Checked.take`: parts of a list;
  `Checked.sub`: a difference;
* `Checked.cut_eq`, `Checked.shiftSpan_eq`, `Checked.mapM_eq`: where they do not fail.
-/

namespace LpFormat

/-- What can go wrong. -/
inductive Fault where
  /-- A span would end before it starts. -/
  | disorder (start stop : Nat)
  /-- An offset is not held by 32 bits. -/
  | offset (value : Int)
  /-- A text is not cut between two of its characters. -/
  | cut (span : Span)
  /-- An index is beyond the end of a list. -/
  | index (i : Nat)
  /-- A count would be below zero. -/
  | underflow (a b : Nat)
  /-- A node is completed in a place that is not held for it. -/
  | unreserved (place : Nat)
  /-- A node was begun and is not completed. -/
  | abandoned (place : Nat)
  /-- A node is stored in another place than the one that leads to it. -/
  | astray (id : Nat)
  /-- A loop takes more rounds than there are characters. -/
  | endless
deriving DecidableEq, Repr

/-- A computation that can go wrong. -/
abbrev Checked := Except Fault

namespace Checked

/-! ## The operations -/

/-- The span between two offsets. -/
def span (start stop : Nat) : Checked Span :=
  if start ≤ stop then .ok ⟨start, stop⟩ else .error (.disorder start stop)

/-- The offsets that 32 bits hold are below this number. -/
def limit : Nat := 2 ^ 32

/-- A number as an offset. -/
def offset (value : Int) : Checked Nat :=
  if 0 ≤ value ∧ value < limit then .ok value.toNat else .error (.offset value)

/-- An offset moved by a signed distance. -/
def shift (start : Nat) (delta : Int) : Checked Nat := offset (start + delta)

/-- A span with both ends moved. -/
def shiftSpan (s : Span) (delta : Int) : Checked Span := do
  let start ← shift s.start delta
  let stop ← shift s.stop delta
  span start stop

/-- A span with its end moved. -/
def stretchSpan (s : Span) (delta : Int) : Checked Span := do
  let stop ← shift s.stop delta
  span s.start stop

/-- The part of a text that a span covers. -/
def cut (text : Text) (s : Span) : Checked Text :=
  if s.start ≤ s.stop ∧ text.isBoundary s.start ∧ text.isBoundary s.stop then .ok (text.slice s)
  else .error (.cut s)

variable {α β : Type}

/-- The element with an index. -/
def get (xs : List α) (i : Nat) : Checked α :=
  match xs[i]? with
  | some x => .ok x
  | none => .error (.index i)

/-- The first elements of a list. -/
def take (n : Nat) (xs : List α) : Checked (List α) :=
  if n ≤ xs.length then .ok (xs.take n) else .error (.index n)

/-- The difference of two counts. -/
def sub (a b : Nat) : Checked Nat := if b ≤ a then .ok (a - b) else .error (.underflow a b)

/-! ## Where they do not fail -/

theorem ok_bind (a : α) (f : α → Checked β) : (Except.ok a >>= f) = f a := by
  simp only [bind, Except.bind]

theorem bind_eq_ok {x : Checked α} {f : α → Checked β} {b : β} :
    (x >>= f) = .ok b ↔ ∃ a, x = .ok a ∧ f a = .ok b := by
  cases x with
  | ok a =>
    rw [ok_bind]
    exact ⟨fun h => ⟨a, rfl, h⟩, fun ⟨_, h₁, h₂⟩ => by cases h₁; exact h₂⟩
  | error e => exact ⟨fun h => (by cases h), fun ⟨_, h, _⟩ => by cases h⟩

/-- What every step keeps, a whole fold keeps. -/
theorem foldlM_ok (p : β → Prop) {f : β → α → Checked β}
    (hf : ∀ (b : β) (a : α) (b' : β), p b → f b a = .ok b' → p b') {xs : List α} {b b' : β} (hb : p b)
    (h : xs.foldlM f b = .ok b') : p b' := by
  induction xs generalizing b with
  | nil =>
    cases h
    exact hb
  | cons x xs ih =>
    rw [List.foldlM_cons] at h
    obtain ⟨b₁, h₁, h⟩ := bind_eq_ok.1 h
    exact ih (hf b x b₁ hb h₁) h

theorem span_eq {start stop : Nat} (h : start ≤ stop) : span start stop = .ok ⟨start, stop⟩ :=
  if_pos h

theorem offset_eq {n : Nat} (h : n < limit) : offset n = .ok n :=
  if_pos ⟨Int.natCast_nonneg n, by omega⟩

theorem shift_eq {a b : Nat} {δ : Int} (h : (b : Int) = a + δ) (hb : b < limit) :
    shift a δ = .ok (shiftOffset a δ) := by
  rw [shift, ← h, offset_eq hb, shiftOffset_eq h]

theorem shiftSpan_eq {s t : Span} {δ : Int} (h₁ : (t.start : Int) = s.start + δ)
    (h₂ : (t.stop : Int) = s.stop + δ) (ht : t.start ≤ t.stop) (hstop : t.stop < limit) :
    shiftSpan s δ = .ok (s.shift δ) := by
  rw [shiftSpan, shift_eq h₁ (by omega), shift_eq h₂ hstop, ok_bind, ok_bind, Span.shift_eq h₁ h₂,
    shiftOffset_eq h₁, shiftOffset_eq h₂]
  exact span_eq ht

theorem stretchSpan_eq {s t : Span} {δ : Int} (h₁ : t.start = s.start)
    (h₂ : (t.stop : Int) = s.stop + δ) (ht : t.start ≤ t.stop) (hstop : t.stop < limit) :
    stretchSpan s δ = .ok (s.stretch δ) := by
  rw [stretchSpan, shift_eq h₂ hstop, ok_bind, Span.stretch_eq h₁ h₂, shiftOffset_eq h₂, ← h₁]
  exact span_eq ht

/-- The part of a text between two known parts. -/
theorem cut_eq (a b c : Text) :
    cut (a ++ (b ++ c)) ⟨a.byteSize, a.byteSize + b.byteSize⟩ = .ok b := by
  have hstop : (a ++ (b ++ c)).isBoundary (a.byteSize + b.byteSize) = true := by
    rw [← List.append_assoc, ← Text.byteSize_append]
    exact Text.isBoundary_append _ _
  rw [cut, if_pos ⟨Nat.le_add_right _ _, Text.isBoundary_append _ _, hstop⟩, ← List.append_assoc,
    Text.slice_append]

theorem cut_of_eq {text a b c : Text} {s : Span} (h : text = a ++ (b ++ c))
    (hstart : s.start = a.byteSize) (hstop : s.stop = a.byteSize + b.byteSize) :
    cut text s = .ok b := by
  obtain ⟨start, stop⟩ := s
  obtain rfl : start = _ := hstart
  obtain rfl : stop = _ := hstop
  rw [h]
  exact cut_eq a b c

theorem cut_slice {text a b c : Text} {s : Span} (h : text = a ++ (b ++ c))
    (hstart : s.start = a.byteSize) (hstop : s.stop = a.byteSize + b.byteSize) :
    cut text s = .ok (text.slice s) := by
  have hcut := cut_of_eq h hstart hstop
  rw [cut] at hcut ⊢
  split_ifs at hcut ⊢
  rfl

theorem get_eq {xs : List α} {i : Nat} {x : α} (h : xs[i]? = some x) : get xs i = .ok x := by
  rw [get, h]

theorem take_eq {n : Nat} {xs : List α} (h : n ≤ xs.length) : take n xs = .ok (xs.take n) :=
  if_pos h

theorem sub_eq {a b : Nat} (h : b ≤ a) : sub a b = .ok (a - b) := if_pos h

theorem mapM_eq {f : α → Checked β} {g : α → β} {xs : List α} (h : ∀ x ∈ xs, f x = .ok (g x)) :
    xs.mapM f = .ok (xs.map g) := by
  induction xs with
  | nil => rfl
  | cons x xs ih =>
    obtain ⟨hx, hxs⟩ := List.forall_mem_cons.1 h
    rw [List.mapM_cons, hx, ok_bind, ih hxs]
    rfl

theorem mapM_range_eq {f : Nat → Checked α} {xs : List α} (h : ∀ i x, xs[i]? = some x → f i = .ok x) :
    (List.range xs.length).mapM f = .ok xs := by
  induction xs using List.reverseRecOn with
  | nil => rfl
  | append_singleton xs x ih =>
    have hxs : (List.range xs.length).mapM f = .ok xs :=
      ih fun i y hy => h i y (by rw [List.getElem?_append_left (List.getElem?_eq_some_iff.1 hy).1, hy])
    have hx : f xs.length = .ok x := h xs.length x List.getElem?_concat_length
    rw [List.length_append, List.length_singleton, List.range_succ, List.mapM_append, hxs, ok_bind,
      List.mapM_cons, hx, ok_bind]
    rfl

end Checked

end LpFormat
