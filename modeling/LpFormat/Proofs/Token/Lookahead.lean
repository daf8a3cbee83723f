import LpFormat.Proofs.Token.Stops

/-!
# How far a token looks ahead

* `Lexeme.CommonStop`: two texts that begin alike up to and including a stop;
* `Lexeme.Seals`: line ends and closed comments, behind which nothing is looked at;
* **`Lexeme.scan_append_eq`**: a token stays as it is when the text changes behind a stop, or behind
  a token that seals itself off;
* `Lexeme.seals_of_newline`, `Lexeme.seals_of_blockComment`.
-/

namespace LpFormat.Lexeme

/-! ## What may change behind a token -/

/-- Both texts begin alike up to and including a stop. -/
def CommonStop (x y : Text) : Prop :=
  ∃ b s x' y', Unstopped b ∧ isStop s = true ∧ x = b ++ s :: x' ∧ y = b ++ s :: y'

theorem CommonStop.head? {x y : Text} (h : CommonStop x y) : y.head? = x.head? := by
  obtain ⟨b, s, x', y', -, -, rfl, rfl⟩ := h
  cases b <;> rfl

theorem CommonStop.ne_nil {x y : Text} (h : CommonStop x y) : x ≠ [] := by
  obtain ⟨b, s, x', y', -, -, rfl, rfl⟩ := h
  simp

theorem exists_stop {u : Text} (hu : ¬ Unstopped u) :
    ∃ b s u', Unstopped b ∧ isStop s = true ∧ u = b ++ s :: u' := by
  induction u with
  | nil => exact absurd (List.forall_mem_nil _) hu
  | cons c u ih =>
    by_cases hc : isStop c = true
    · exact ⟨[], c, u, List.forall_mem_nil _, hc, rfl⟩
    · rw [Bool.not_eq_true] at hc
      have hcons : ∀ {v}, Unstopped v → Unstopped (c :: v) := fun hv =>
        List.forall_mem_cons.2 ⟨hc, hv⟩
      obtain ⟨b, s, u', hb, hs, rfl⟩ := ih fun h => hu (hcons h)
      exact ⟨c :: b, s, u', hcons hb, hs, rfl⟩

/-- Texts that begin alike with a piece that has a stop in it. -/
theorem commonStop_append {u : Text} (hu : ¬ Unstopped u) (x y : Text) :
    CommonStop (u ++ x) (u ++ y) := by
  obtain ⟨b, s, u', hb, hs, rfl⟩ := exists_stop hu
  exact ⟨b, s, u' ++ x, u' ++ y, hb, hs, by simp, by simp⟩

theorem commentTailLength_cons (c : Char) (cs : Text) :
    commentTailLength (c :: cs) =
      if c = '*' ∧ cs.head? = some '\\' then 2 else 1 + commentTailLength cs := by
  rw [commentTailLength.eq_def]
  split <;> rename_i h
  · cases h
  · obtain ⟨rfl, rfl⟩ := List.cons.inj h
    rw [if_pos ⟨rfl, rfl⟩]
  · rename_i hne
    obtain ⟨rfl, rfl⟩ := List.cons.inj h
    rw [if_neg]
    rintro ⟨rfl, hhead⟩
    cases cs with
    | nil => cases hhead
    | cons d cs =>
      cases hhead
      exact hne cs rfl rfl

/-- A comment that does not reach the end of the text, or has its closing mark, ends there whatever
follows. -/
theorem commentTailLength_append {m x : Text} (h : commentTailLength (m ++ x) = m.length)
    (hx : x ≠ [] ∨ ['*', '\\'] <:+ m) (y : Text) : commentTailLength (m ++ y) = m.length := by
  induction m with
  | nil =>
    rcases hx with hx | hx
    · cases x with
      | nil => exact absurd rfl hx
      | cons c x =>
        rw [List.nil_append, commentTailLength_cons] at h
        split_ifs at h
        simp at h
    · simp at hx
  | cons c m ih =>
    rw [List.cons_append, commentTailLength_cons, List.length_cons] at h
    rw [List.cons_append, commentTailLength_cons, List.length_cons]
    split_ifs at h with hclose
    · -- the closing mark is here
      obtain ⟨d, rfl⟩ : ∃ d, m = [d] := List.length_eq_one_iff.1 (by omega)
      rw [if_pos ⟨hclose.1, hclose.2⟩]
      rfl
    · have htail : commentTailLength (m ++ x) = m.length := by omega
      have hm : m ≠ [] := by
        rintro rfl
        rcases hx with hx | hx
        · cases x with
          | nil => exact hx rfl
          | cons d x =>
            rw [List.nil_append, commentTailLength_cons] at htail
            split_ifs at htail
            simp at htail
        · have := hx.length_le
          simp at this
      have hhead : (m ++ y).head? = (m ++ x).head? := by
        cases m with
        | nil => exact absurd rfl hm
        | cons d m => rfl
      rw [hhead, if_neg hclose, ih htail ?_, Nat.add_comm]
      refine hx.imp_right fun hx => ?_
      rcases List.suffix_cons_iff.1 hx with heq | hx
      · obtain ⟨rfl, rfl⟩ := List.cons.inj heq
        exact absurd ⟨rfl, rfl⟩ hclose
      · exact hx

/-- The token is a line end or a comment with its closing mark, so that what follows it is not
looked at, but for a line feed after a lone carriage return. -/
def Seals (w y : Text) : Prop :=
  w = ['\n'] ∨ w = ['\r', '\n'] ∨ (w = ['\r'] ∧ y.head? ≠ some '\n') ∨
    ∃ m, w = '\\' :: '*' :: m ∧ ['*', '\\'] <:+ m

/-- A token that does not begin with a stop has none in it. -/
theorem unstopped_of_scan {mode : Mode} {c : Char} {w x : Text} {kind : Kind}
    (hc : isStop c = false) (h : scan mode (c :: w ++ x) = (kind, (c :: w).length)) :
    Unstopped (c :: w) := by
  by_contra hne
  obtain ⟨b, s, w', hb, hs, hw⟩ := exists_stop hne
  cases b with
  | nil =>
    obtain ⟨rfl, -⟩ := List.cons.inj hw
    rw [hc] at hs
    cases hs
  | cons d b =>
    have hlen := scan_length_le mode d b
    rw [hw, List.append_assoc, List.cons_append (a := s),
      scan_append_stop mode _ (List.cons_ne_nil d b) hb hs] at h
    rw [h] at hlen
    simp only [List.length_append, List.length_cons] at hlen
    omega

theorem scan_append_eq_of_not_stop {mode : Mode} {c : Char} {w x y : Text} {kind : Kind}
    (h : scan mode (c :: w ++ x) = (kind, (c :: w).length)) (hc : isStop c = false)
    (hxy : CommonStop x y) : scan mode (c :: w ++ y) = (kind, (c :: w).length) := by
  have hw := unstopped_of_scan hc h
  obtain ⟨b, s, x', y', hb, hs, rfl, rfl⟩ := hxy
  have hwb : Unstopped (c :: w ++ b) := fun d hd =>
    (List.mem_append.1 hd).elim (hw d) (hb d)
  have hne : c :: w ++ b ≠ [] := List.cons_ne_nil _ _
  rw [← List.append_assoc, scan_append_stop mode y' hne hwb hs]
  rwa [← List.append_assoc, scan_append_stop mode x' hne hwb hs] at h

theorem scan_append_eq_of_return {mode : Mode} {w x y : Text} {kind : Kind}
    (h : scan mode ('\r' :: w ++ x) = (kind, ('\r' :: w).length))
    (hxy : CommonStop x y ∨ Seals ('\r' :: w) y) :
    scan mode ('\r' :: w ++ y) = (kind, ('\r' :: w).length) := by
  rw [List.cons_append] at h ⊢
  by_cases hwx : (w ++ x).head? = some '\n'
  · obtain ⟨v, hv⟩ : ∃ v, w ++ x = '\n' :: v := by
      cases hwx' : w ++ x with
      | nil => simp [hwx'] at hwx
      | cons d v =>
        rw [hwx'] at hwx
        cases hwx
        exact ⟨v, rfl⟩
    rw [hv, scan_return_lineFeed, Prod.mk.injEq, List.length_cons] at h
    cases w with
    | nil =>
      simp at h
    | cons d w =>
      obtain ⟨rfl, -⟩ := List.cons.inj hv
      rw [List.cons_append, scan_return_lineFeed, h.1, h.2]
      simp
  · rw [scan_return mode hwx, Prod.mk.injEq, List.length_cons] at h
    obtain rfl : w = [] := List.length_eq_zero_iff.1 (by omega)
    have hy : ([] ++ y).head? ≠ some '\n' := by
      rcases hxy with hxy | hxy | hxy | hxy | ⟨m, hxy, -⟩
      · rw [List.nil_append, hxy.head?]
        exact hwx
      · cases hxy
      · cases hxy
      · exact hxy.2
      · cases hxy
    rw [scan_return mode hy, h.1]
    simp

theorem scan_append_eq_of_backslash {mode : Mode} {w x y : Text} {kind : Kind}
    (h : scan mode ('\\' :: w ++ x) = (kind, ('\\' :: w).length))
    (hxy : CommonStop x y ∨ Seals ('\\' :: w) y) :
    scan mode ('\\' :: w ++ y) = (kind, ('\\' :: w).length) := by
  rw [List.cons_append] at h ⊢
  by_cases hwx : (w ++ x).head? = some '*'
  · cases w with
    | nil =>
      -- the star would belong to the comment
      cases x with
      | nil => cases hwx
      | cons d x =>
        cases hwx
        rw [List.nil_append, scan_blockComment, Prod.mk.injEq] at h
        simp at h
        omega
    | cons d m =>
      cases hwx
      rw [List.cons_append, scan_blockComment, Prod.mk.injEq, List.length_cons,
        List.length_cons] at h
      have hclosed : x ≠ [] ∨ ['*', '\\'] <:+ m := by
        rcases hxy with hxy | hxy | hxy | hxy | ⟨m', hxy, hm'⟩
        · exact .inl hxy.ne_nil
        · cases hxy
        · cases hxy
        · cases hxy.1
        · cases hxy
          exact .inr hm'
      rw [List.cons_append, scan_blockComment, commentTailLength_append (by omega) hclosed, h.1]
      simp only [List.length_cons]
      rw [Nat.add_comm]
  · have hstop : CommonStop x y := by
      rcases hxy with hxy | hxy | hxy | hxy | ⟨m', hxy, -⟩
      · exact hxy
      · cases hxy
      · cases hxy
      · cases hxy.1
      · cases hxy
        exact absurd rfl hwx
    have hwy : (w ++ y).head? ≠ some '*' := by
      cases w with
      | nil =>
        rw [List.nil_append, hstop.head?]
        exact hwx
      | cons d w => exact hwx
    rw [scan_lineComment mode hwx, Prod.mk.injEq, List.length_cons, List.takeWhile_append] at h
    rw [scan_lineComment mode hwy, List.takeWhile_append]
    split_ifs at h ⊢ with hall
    · -- the whole token is on the line, which ends right behind it
      have hx : x.takeWhile (fun c => !isLineEnd c) = [] := by
        rw [List.length_append] at h
        exact List.length_eq_zero_iff.1 (by omega)
      have hy : y.takeWhile (fun c => !isLineEnd c) = [] := by
        have hhead := hstop.head?
        cases y with
        | nil => rfl
        | cons d y =>
          cases x with
          | nil => cases hhead
          | cons d' x =>
            cases hhead
            rw [List.takeWhile_cons] at hx ⊢
            split_ifs at hx ⊢
            rfl
      rw [hy, h.1, List.append_nil, List.length_cons, Nat.add_comm]
    · have := takeWhile_length_le (fun c => !isLineEnd c) w
      omega

/-- **A token stays as it is when the text behind it changes**, if the change comes after a stop or
the token seals itself off. -/
theorem scan_append_eq {mode : Mode} {w x y : Text} {kind : Kind}
    (h : scan mode (w ++ x) = (kind, w.length)) (hw : w ≠ [])
    (hxy : CommonStop x y ∨ Seals w y) : scan mode (w ++ y) = (kind, w.length) := by
  cases w with
  | nil => exact absurd rfl hw
  | cons c w =>
    by_cases hc : isStop c = true
    · rcases isStop_iff.1 hc with rfl | rfl | rfl
      · exact scan_append_eq_of_return h hxy
      · rw [List.cons_append, scan_lineFeed] at h ⊢
        exact h
      · exact scan_append_eq_of_backslash h hxy
    · rw [Bool.not_eq_true] at hc
      refine scan_append_eq_of_not_stop h hc ?_
      rcases hxy with hxy | hxy | hxy | hxy | ⟨m, hxy, -⟩
      · exact hxy
      all_goals simp_all [isStop, isLineEnd]

/-- A line end seals itself off. -/
theorem seals_of_newline {mode : Mode} {w x y : Text} (h : scan mode (w ++ x) = (.newline, w.length))
    (hw : w ≠ []) (hy : w = ['\r'] → y.head? ≠ some '\n') : Seals w y := by
  cases w with
  | nil => exact absurd rfl hw
  | cons c w =>
    rw [List.cons_append] at h
    by_cases hc : isStop c = true
    · rcases isStop_iff.1 hc with rfl | rfl | rfl
      · by_cases hwx : (w ++ x).head? = some '\n'
        · cases w with
          | nil =>
            cases x with
            | nil => cases hwx
            | cons d x =>
              cases hwx
              rw [List.nil_append, scan_return_lineFeed] at h
              simp at h
          | cons d w =>
            cases hwx
            rw [List.cons_append, scan_return_lineFeed, Prod.mk.injEq] at h
            obtain rfl : w = [] := by simpa using h
            exact .inr (.inl rfl)
        · rw [scan_return mode hwx, Prod.mk.injEq, List.length_cons] at h
          obtain rfl : w = [] := List.length_eq_zero_iff.1 (by omega)
          exact .inr (.inr (.inl ⟨rfl, hy rfl⟩))
      · rw [scan_lineFeed, Prod.mk.injEq, List.length_cons] at h
        obtain rfl : w = [] := List.length_eq_zero_iff.1 (by omega)
        exact .inl rfl
      · by_cases hwx : (w ++ x).head? = some '*'
        · cases hwx' : w ++ x with
          | nil => simp [hwx'] at hwx
          | cons d v =>
            rw [hwx'] at hwx h
            cases hwx
            rw [scan_blockComment] at h
            simp at h
        · rw [scan_lineComment mode hwx] at h
          simp at h
    · have hkind := scan_kind_of_not_stop mode (by simpa using hc) (w ++ x)
      rw [h] at hkind
      cases hkind

theorem commentTailLength_suffix {m x : Text} (h : commentTailLength (m ++ x) = m.length)
    (hx : x ≠ []) : ['*', '\\'] <:+ m := by
  induction m with
  | nil =>
    cases x with
    | nil => exact absurd rfl hx
    | cons c x =>
      rw [List.nil_append, commentTailLength_cons] at h
      split_ifs at h
      simp at h
  | cons c m ih =>
    rw [List.cons_append, commentTailLength_cons, List.length_cons] at h
    split_ifs at h with hclose
    · obtain ⟨d, rfl⟩ : ∃ d, m = [d] := List.length_eq_one_iff.1 (by omega)
      obtain ⟨rfl, hd⟩ := hclose
      cases hd
      exact List.suffix_refl _
    · exact (ih (by omega)).trans (List.suffix_cons c m)

/-- The text of a block comment begins with the opening mark. -/
theorem blockComment_cases {mode : Mode} {w x : Text}
    (h : scan mode (w ++ x) = (.blockComment, w.length)) (hw : w ≠ []) :
    ∃ m, w = '\\' :: '*' :: m ∧ commentTailLength (m ++ x) = m.length := by
  cases w with
  | nil => exact absurd rfl hw
  | cons c w =>
    rw [List.cons_append] at h
    by_cases hc : isStop c = true
    · rcases isStop_iff.1 hc with rfl | rfl | rfl
      · by_cases hwx : (w ++ x).head? = some '\n'
        · cases hwx' : w ++ x with
          | nil => simp [hwx'] at hwx
          | cons d v =>
            rw [hwx'] at hwx h
            cases hwx
            rw [scan_return_lineFeed] at h
            simp at h
        · rw [scan_return mode hwx] at h
          simp at h
      · rw [scan_lineFeed] at h
        simp at h
      · by_cases hwx : (w ++ x).head? = some '*'
        · cases w with
          | nil =>
            cases x with
            | nil => cases hwx
            | cons d x =>
              cases hwx
              rw [List.nil_append, scan_blockComment, Prod.mk.injEq] at h
              simp at h
              omega
          | cons d m =>
            cases hwx
            rw [List.cons_append, scan_blockComment, Prod.mk.injEq, List.length_cons,
              List.length_cons] at h
            exact ⟨m, rfl, by omega⟩
        · rw [scan_lineComment mode hwx] at h
          simp at h
    · have hkind := scan_kind_of_not_stop mode (by simpa using hc) (w ++ x)
      rw [h] at hkind
      cases hkind

/-- A block comment with something behind it seals itself off. -/
theorem seals_of_blockComment {mode : Mode} {w x : Text}
    (h : scan mode (w ++ x) = (.blockComment, w.length)) (hw : w ≠ []) (hx : x ≠ []) (y : Text) :
    Seals w y := by
  obtain ⟨m, rfl, hm⟩ := blockComment_cases h hw
  exact .inr (.inr (.inr ⟨m, rfl, commentTailLength_suffix hm hx⟩))

theorem not_unstopped_of_seals {w y : Text} (h : Seals w y) : ¬ Unstopped w := by
  intro hw
  rcases h with rfl | rfl | ⟨rfl, -⟩ | ⟨m, rfl, -⟩ <;> exact absurd (hw _ List.mem_cons_self) (by decide)

end LpFormat.Lexeme
