import LpFormat.Proofs.Token.Stops

/-!
# Lengths in a text that is cut off

The functions that measure numbers, words and gaps look at no more than one character behind what
they measure. Where that does not reach past some place, the text may as well end there. For keywords
the one character counts: a word that goes on is no keyword, and where the text ends it does not go
on.

* `Settled`: lengths that stay as they are when the text is cut off behind them, with `gapLength`,
  `identLength`, `Number.length` and the lengths it is made of;
* **`Number.scan_cut`**, `startsNumber_cut`: numbers;
* **`Grammar.matchKeyword?_cut`**, `Grammar.matchKeyword?_take`: keywords.
-/

namespace LpFormat

/-! ## Lengths -/

/-- A length that does not reach past the end of `u` is the same in `u` alone. -/
def Settled (f : Text → Nat) : Prop := ∀ u v : Text, f (u ++ v) ≤ u.length → f (u ++ v) = f u

theorem takeWhile_cut {p : Char → Bool} {u v : Text}
    (h : ((u ++ v).takeWhile p).length ≤ u.length) : (u ++ v).takeWhile p = u.takeWhile p := by
  rw [List.takeWhile_append] at h ⊢
  split_ifs at h ⊢ with hu
  · have hall : u.takeWhile p = u := (List.takeWhile_sublist p).eq_of_length hu
    rw [List.length_append] at h
    have hv : v.takeWhile p = [] := List.length_eq_zero_iff.1 (by omega)
    rw [hv, List.append_nil, hall]
  · rfl

theorem settled_takeWhile (p : Char → Bool) : Settled fun a => (a.takeWhile p).length :=
  fun _ _ h => congrArg List.length (takeWhile_cut h)

theorem settled_gapLength : Settled gapLength := settled_takeWhile _

theorem settled_identLength : Settled identLength := by
  intro u v h
  cases u with
  | nil => exact Nat.le_zero.1 h
  | cons c u =>
    rw [List.cons_append, identLength, List.length_cons] at h
    rw [List.cons_append, identLength, identLength]
    split_ifs at h ⊢
    · rw [takeWhile_cut (u := u) (v := v) (by omega)]
    · rfl

/-- The next character, unless the text ends. -/
theorem head?_cut {u : Text} (hu : u ≠ []) (v : Text) : (u ++ v).head? = u.head? :=
  List.head?_append_of_ne_nil _ hu

theorem drop_cut {u : Text} {n : Nat} (hn : n ≤ u.length) (v : Text) :
    (u ++ v).drop n = u.drop n ++ v := List.drop_append_of_le_length hn

namespace Number

theorem settled_digitsLength : Settled digitsLength := settled_takeWhile _

theorem mantissaLength_eq (cs : Text) : mantissaLength cs =
    if (cs.drop (digitsLength cs)).head? = some '.' then
      digitsLength cs + 1 + digitsLength ((cs.drop (digitsLength cs)).drop 1)
    else digitsLength cs := by
  rw [mantissaLength]
  cases hd : cs.drop (digitsLength cs) with
  | nil => rfl
  | cons c rest =>
    by_cases hc : c = '.'
    · subst hc
      rfl
    · rw [if_neg (by simpa using hc)]
      split
      · rename_i h
        exact absurd (List.cons.inj h).1 hc
      · rfl

theorem digitsLength_le_mantissaLength (cs : Text) : digitsLength cs ≤ mantissaLength cs := by
  rw [mantissaLength_eq]
  split_ifs <;> omega

theorem settled_mantissaLength : Settled mantissaLength := by
  intro u v h
  have hd : digitsLength (u ++ v) ≤ u.length :=
    Nat.le_trans (digitsLength_le_mantissaLength _) h
  have hdigits := settled_digitsLength u v hd
  rw [hdigits] at hd
  rw [mantissaLength_eq, hdigits, drop_cut hd] at h
  rw [mantissaLength_eq, mantissaLength_eq u, hdigits, drop_cut hd]
  generalize digitsLength u = n at h hd ⊢
  by_cases hu : u.drop n = []
  · have hlen := List.drop_eq_nil_iff.1 hu
    rw [hu, List.nil_append, if_neg (c := ([] : Text).head? = some '.') nofun]
    rw [hu, List.nil_append] at h
    split_ifs at h ⊢
    · omega
    · rfl
  · have hpos : 1 ≤ (u.drop n).length := List.length_pos_iff.2 hu
    rw [head?_cut hu, drop_cut hpos] at h ⊢
    rw [List.length_drop] at hpos
    split_ifs at h ⊢
    · rw [settled_digitsLength ((u.drop n).drop 1) v]
      simp only [List.length_drop]
      omega
    · rfl

theorem settled_exponentLength : Settled exponentLength := by
  intro u v h
  cases u with
  | nil => exact Nat.le_zero.1 h
  | cons c u =>
    simp only [List.cons_append, exponentLength, List.length_cons] at h ⊢
    by_cases hc : c = 'e' ∨ c = 'E'
    · rw [if_pos hc] at h
      rw [if_pos hc, if_pos hc]
      by_cases hu : u = []
      · subst hu
        -- the letter alone is no exponent, and neither was it one before
        rw [List.nil_append, List.length_nil] at h
        rw [List.nil_append,
          if_neg (show ¬ 0 < digitsLength (([] : Text).drop (signLength [])) by decide)]
        split_ifs at h ⊢
        · omega
        · rfl
      · have hsign : signLength (u ++ v) = signLength u := by
          rw [signLength, signLength, head?_cut hu]
        have hs := signLength_le u
        rw [hsign, drop_cut hs] at h ⊢
        rw [settled_digitsLength (u.drop (signLength u)) v]
        rw [List.length_drop]
        split_ifs at h <;> omega
    · rw [if_neg hc, if_neg hc]

theorem settled_length : Settled length := by
  intro u v h
  have hm : mantissaLength (u ++ v) ≤ u.length := Nat.le_trans (Nat.le_add_right _ _) h
  have hmantissa := settled_mantissaLength u v hm
  rw [hmantissa] at hm
  rw [length, hmantissa, drop_cut hm] at h
  rw [length, length, hmantissa, drop_cut hm, settled_exponentLength (u.drop (mantissaLength u)) v]
  rw [List.length_drop]
  omega

theorem length_le_scan (cs : Text) : length cs ≤ (scan cs).2 := by
  rw [scan]
  split_ifs
  · exact Nat.le_add_right _ _
  · exact Nat.le_refl _

/-- A number that ends inside a text is the same when the text is cut off there. -/
theorem scan_cut {u v : Text} (h : (scan (u ++ v)).2 ≤ u.length) : scan (u ++ v) = scan u := by
  have hn : length (u ++ v) ≤ u.length := Nat.le_trans (length_le_scan _) h
  have hlength := settled_length u v hn
  rw [hlength] at hn
  rw [scan, hlength, drop_cut hn] at h
  rw [scan, scan, hlength, drop_cut hn]
  generalize length u = n at h hn ⊢
  by_cases hu : u.drop n = []
  · have hlen := List.drop_eq_nil_iff.1 hu
    rw [hu, List.nil_append, if_neg (c := ([] : Text).head? = some '.') (by simp)]
    rw [hu, List.nil_append] at h
    split_ifs at h ⊢ with h₁
    · -- a second point would belong to the number
      have hpos : 0 < (v.takeWhile isDigitOrPoint).length := by
        cases v with
        | nil => cases h₁
        | cons d v =>
          cases h₁
          rw [List.takeWhile_cons_of_pos (by decide), List.length_cons]
          exact Nat.succ_pos _
      simp only at h
      omega
    · rfl
  · rw [head?_cut hu] at h ⊢
    split_ifs at h ⊢
    · rw [takeWhile_cut (u := u.drop n) (v := v)]
      simp only at h
      rw [List.length_drop]
      omega
    · rfl

end Number

/-- Whether a number begins is seen in the first two characters. -/
theorem startsNumber_append {u : Text} (h : startsNumber u = true) (v : Text) :
    startsNumber (u ++ v) = true := by
  match u with
  | [] => cases h
  | [c] =>
    by_cases hc : c = '.'
    · subst hc
      cases h
    · rwa [List.cons_append, startsNumber_cons hc, ← startsNumber_cons hc []]
  | c :: d :: u =>
    by_cases hc : c = '.'
    · subst hc
      exact h
    · rwa [List.cons_append, startsNumber_cons hc, ← startsNumber_cons hc (d :: u)]

/-- A number that ends inside a text begins in it. -/
theorem startsNumber_cut {u v : Text} (h : startsNumber (u ++ v) = true) (hu : u ≠ [])
    (hlen : (Number.scan (u ++ v)).2 ≤ u.length) : startsNumber u = true := by
  match u with
  | [] => exact absurd rfl hu
  | [c] =>
    by_cases hc : c = '.'
    · -- the point and the digit behind it would be one number
      subst hc
      cases v with
      | nil => exact h
      | cons d v =>
        have hd : d.isDigit = true := h
        have hmantissa : 2 ≤ Number.mantissaLength ('.' :: d :: v) := by
          have hdigits : 0 < Number.digitsLength (d :: v) := by
            simp [Number.digitsLength, hd]
          change 2 ≤ 0 + 1 + Number.digitsLength (d :: v)
          omega
        have hlength := Number.length_le_scan ('.' :: d :: v)
        rw [Number.length] at hlength
        simp only [List.cons_append, List.nil_append, List.length_cons, List.length_nil] at hlen
        omega
    · rwa [List.cons_append, startsNumber_cons hc, ← startsNumber_cons hc []] at h
  | c :: d :: u =>
    by_cases hc : c = '.'
    · subst hc
      exact h
    · rwa [List.cons_append, startsNumber_cons hc, ← startsNumber_cons hc (d :: u)] at h

/-! ## Keywords -/

theorem gapLength_append {a : Text} (h : a.drop (gapLength a) ≠ []) (v : Text) :
    gapLength (a ++ v) = gapLength a := by
  rw [gapLength, List.takeWhile_append]
  split_ifs with hlen
  · rw [gapLength, hlen, List.drop_length] at h
    exact absurd rfl h
  · rfl

namespace Keyword

theorem wordsLength?_append {words : List String} {u : Text} {m : Nat}
    (hw : ∀ w ∈ words, w.toList ≠ []) (h : wordsLength? words u = some m) (v : Text) :
    wordsLength? words (u ++ v) = some m := by
  induction words generalizing u m with
  | nil => exact h
  | cons word words ih =>
    have hw' : ∀ w ∈ words, _ := fun w hmem => hw w (List.mem_cons_of_mem _ hmem)
    rw [wordsLength?] at h ⊢
    split at h
    · rename_i hsame
      have hle := le_of_sameLetters_take hsame
      rw [List.take_append_of_le_length hle, if_pos hsame]
      cases words with
      | nil => exact h
      | cons next more =>
        simp only at h ⊢
        split_ifs at h with hgap
        obtain ⟨k, hk, rfl⟩ := Option.map_eq_some_iff.1 h
        -- the next word stands behind the gap, so the gap ends inside
        have hne :
            (u.drop word.toList.length).drop (gapLength (u.drop word.toList.length)) ≠ [] := by
          intro hnil
          have hpos := wordsLength?_pos (hw next (by simp)) hk
          have hlen := wordsLength?_le hk
          rw [hnil, List.length_nil] at hlen
          omega
        rw [drop_cut hle, gapLength_append hne, if_neg hgap, drop_cut (gapLength_le _), ih hw' hk]
        rfl
    · cases h

theorem wordsLength?_cut {words : List String} {u v : Text} {m : Nat}
    (h : wordsLength? words (u ++ v) = some m) (hm : m ≤ u.length) :
    wordsLength? words u = some m := by
  induction words generalizing u m with
  | nil => exact h
  | cons word words ih =>
    rw [wordsLength?] at h ⊢
    split at h
    · rename_i hsame
      cases words with
      | nil =>
        simp only [Option.some.injEq] at h
        rw [List.take_append_of_le_length (by omega)] at hsame
        rw [if_pos hsame, ← h]
      | cons next more =>
        simp only at h ⊢
        split_ifs at h with hgap
        obtain ⟨k, hk, rfl⟩ := Option.map_eq_some_iff.1 h
        have hle : word.toList.length ≤ u.length := by omega
        rw [drop_cut hle] at hgap hk hm ⊢
        have hsettled := settled_gapLength (u.drop word.toList.length) v (by
          rw [List.length_drop]
          omega)
        rw [hsettled] at hgap hk hm ⊢
        rw [drop_cut (gapLength_le _)] at hk
        rw [List.take_append_of_le_length hle] at hsame
        rw [if_pos hsame, if_neg hgap, ih hk]
        · rfl
        · simp only [List.length_drop]
          omega
    · cases h

/-- There is no colon among the words of a keyword and the gaps between them. -/
theorem colon_not_mem {words : List String} {u : Text} {m : Nat}
    (hw : ∀ w ∈ words, ∀ c ∈ w.toList, c.toLower ≠ ':') (h : wordsLength? words u = some m) :
    ':' ∉ u.take m := by
  induction words generalizing u m with
  | nil =>
    cases h
    simp
  | cons word words ih =>
    have hw' : ∀ w ∈ words, _ := fun w hmem => hw w (List.mem_cons_of_mem _ hmem)
    rw [wordsLength?] at h
    split at h
    · rename_i hsame
      have hword : ':' ∉ u.take word.toList.length := by
        intro hmem
        rw [Text.sameLetters, beq_iff_eq] at hsame
        have hlower : ':' ∈ word.toList.map Char.toLower := by
          rw [← hsame]
          exact List.mem_map.2 ⟨_, hmem, rfl⟩
        obtain ⟨c, hc, hcolon⟩ := List.mem_map.1 hlower
        exact hw word List.mem_cons_self c hc hcolon
      cases words with
      | nil =>
        cases h
        exact hword
      | cons next more =>
        simp only at h
        split_ifs at h with hgap
        obtain ⟨k, hk, rfl⟩ := Option.map_eq_some_iff.1 h
        rw [Nat.add_assoc, List.take_add, List.take_add, List.mem_append, List.mem_append]
        rintro (hmem | hmem | hmem)
        · exact hword hmem
        · rw [gapLength, ← List.prefix_iff_eq_take.1 (List.takeWhile_prefix _)] at hmem
          have := List.mem_takeWhile_imp hmem
          cases this
        · exact ih hw' hk hmem
    · cases h

variable {k : Keyword} {u v : Text}

/-- A keyword at the end of a text is one also if the text goes on, unless its words go on. -/
theorem matchLength?_append {n : Nat} (hne : ∀ w ∈ k.words, w.toList ≠ [])
    (hcolon : ∀ w ∈ k.words, ∀ c ∈ w.toList, c.toLower ≠ ':') (h : k.matchLength? u = some n)
    (hend : v.head?.any isIdentContinue = false ∨ ':' ∈ u) : k.matchLength? (u ++ v) ≠ none := by
  rw [matchLength?] at h ⊢
  cases hm : wordsLength? k.words u with
  | none =>
    rw [hm] at h
    cases h
  | some m =>
    rw [hm] at h
    simp only at h
    have hle := wordsLength?_le hm
    rw [wordsLength?_append hne hm]
    simp only
    rw [drop_cut hle]
    split_ifs at h with hcont
    all_goals
      have hhead : ¬ (u.drop m ++ v).head?.any isIdentContinue = true := by
        by_cases hnil : u.drop m = []
        · rw [hnil, List.nil_append]
          rcases hend with hend | hend
          · simp [hend]
          · have := colon_not_mem hcolon hm
            rw [List.take_of_length_le (List.drop_eq_nil_iff.1 hnil)] at this
            exact absurd hend this
        · rwa [head?_cut hnil]
      rw [if_neg hhead]
      split_ifs <;> exact Option.some_ne_none _

/-- A keyword is found also where the text ends with it, and then the words do not go on or a colon
closes them. -/
theorem matchLength?_cut (h : k.matchLength? (u ++ v) = some u.length) :
    k.matchLength? u = some u.length ∧ (v.head?.any isIdentContinue = false ∨ ':' ∈ u) := by
  rw [matchLength?] at h ⊢
  cases hm : wordsLength? k.words (u ++ v) with
  | none =>
    rw [hm] at h
    cases h
  | some m =>
    rw [hm] at h
    simp only at h
    split_ifs at h with hcont hcolon
    · -- the words, a gap and the colon
      rw [Option.some.injEq] at h
      have hle : m ≤ u.length := by omega
      rw [drop_cut hle] at h hcont hcolon
      have hgap := settled_gapLength (u.drop m) v (by
        rw [List.length_drop]
        omega)
      rw [hgap] at h hcolon
      rw [drop_cut (gapLength_le _)] at hcolon
      have hne : (u.drop m).drop (gapLength (u.drop m)) ≠ [] := by
        intro hnil
        have := congrArg List.length hnil
        simp only [List.length_drop, List.length_nil] at this
        omega
      have hne' : u.drop m ≠ [] := fun hnil => hne (by rw [hnil]; rfl)
      rw [head?_cut hne] at hcolon
      rw [head?_cut hne'] at hcont
      rw [wordsLength?_cut hm hle]
      simp only
      rw [if_neg hcont, if_pos hcolon, h]
      refine ⟨rfl, .inr ?_⟩
      rw [Bool.and_eq_true, beq_iff_eq] at hcolon
      exact List.mem_of_mem_drop (List.mem_of_mem_drop (List.mem_of_mem_head? hcolon.2))
    · cases h
      rw [drop_cut (Nat.le_refl _), List.drop_length, List.nil_append] at hcont
      rw [wordsLength?_cut hm (Nat.le_refl _)]
      simp only [List.drop_length]
      refine ⟨?_, .inl (by simpa using hcont)⟩
      rw [if_neg (by simp), if_neg (by simp)]

end Keyword

namespace Grammar

theorem keywords_spelt : ∀ k ∈ keywords, (∀ w ∈ k.words, w.toList ≠ []) ∧
    ∀ w ∈ k.words, ∀ c ∈ w.toList, c.toLower ≠ ':' := by
  have h : (keywords.all fun k => k.words.all fun w => !w.toList.isEmpty &&
      w.toList.all fun c => c.toLower != ':') = true := by decide
  intro k hk
  have hwords := List.all_eq_true.1 h k hk
  simp only [List.all_eq_true, Bool.and_eq_true, bne_iff_ne, Bool.not_eq_true',
    List.isEmpty_eq_false_iff] at hwords
  exact ⟨fun w hw => (hwords w hw).1, fun w hw => (hwords w hw).2⟩

/-- Where no keyword stands, none stands when the text is cut off, unless a word went on there. -/
theorem matchKeyword?_cut {u v : Text} (h : matchKeyword? (u ++ v) = none)
    (hend : v.head?.any isIdentContinue = false ∨ ':' ∈ u) : matchKeyword? u = none := by
  rw [matchKeyword?, List.findSome?_eq_none_iff] at h ⊢
  intro k hk
  obtain ⟨hne, hcolon⟩ := keywords_spelt k hk
  have hv := Option.map_eq_none_iff.1 (h k hk)
  rw [Option.map_eq_none_iff]
  by_contra hu
  obtain ⟨n, hn⟩ := Option.ne_none_iff_exists'.1 hu
  exact Keyword.matchLength?_append hne hcolon hn hend hv

/-- A keyword is found also where the text ends with it. -/
theorem matchKeyword?_take {u v : Text} {kind : Kind}
    (h : matchKeyword? (u ++ v) = some (kind, u.length)) :
    matchKeyword? u = some (kind, u.length) := by
  obtain ⟨before, k, after, hsplit, hk, hbefore⟩ := List.findSome?_eq_some_iff.1 h
  obtain ⟨n, hn, he⟩ := Option.map_eq_some_iff.1 hk
  obtain ⟨rfl, rfl⟩ := Prod.mk.inj he
  obtain ⟨hcut, hend⟩ := Keyword.matchLength?_cut hn
  refine List.findSome?_eq_some_iff.2
    ⟨before, k, after, hsplit, by rw [hcut]; rfl, fun k' hk' => ?_⟩
  obtain ⟨hne, hcolon⟩ := keywords_spelt k' (hsplit ▸ List.mem_append_left _ hk')
  have hv := Option.map_eq_none_iff.1 (hbefore k' hk')
  rw [Option.map_eq_none_iff]
  by_contra hu
  obtain ⟨m, hm⟩ := Option.ne_none_iff_exists'.1 hu
  exact Keyword.matchLength?_append hne hcolon hm hend hv

theorem matchKeyword?_isSectionKeyword {u : Text} {kind : Kind} {n : Nat}
    (h : matchKeyword? u = some (kind, n)) : kind.isSectionKeyword = true := by
  obtain ⟨k, hk, hm⟩ := List.exists_of_findSome?_eq_some h
  obtain ⟨m, -, he⟩ := Option.map_eq_some_iff.1 hm
  have hall : ∀ k ∈ keywords, k.kind.isSectionKeyword = true := by decide
  exact (Prod.mk.inj he).1 ▸ hall k hk

end Grammar

end LpFormat
