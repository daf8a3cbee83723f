import LpFormat.Proofs.Token.Rules
import LpFormat.Proofs.Token.Settled

/-!
# Texts that are cut off behind a token

What the reader takes for a token it takes again when the text ends behind it, or behind some of the
tokens that follow. Only a keyword could come up anew, where its words end with the text.

* `Lexeme.inside_cut`: what a sign or an error token sees of the token behind it;
* **`Lexeme.scan_cut`**: a token in front of others that are all left;
* `Lexeme.scan_keyword`: a keyword in front of a line end;
* **`Reader.Reads.cut`**: all tokens of a text that is cut off behind them.
-/

namespace LpFormat

/-! ## Tokens -/

namespace Lexeme

theorem rule?_number {c : Char} {cs : Text} (h : startsNumber (c :: cs) = true) :
    isStop c = false ∧ rule? (c :: cs) = some (Number.scan (c :: cs)) := by
  have hc : c.isDigit = true ∨ c = '.' := by
    by_cases hdot : c = '.'
    · exact .inr hdot
    · rw [startsNumber_cons hdot] at h
      exact .inl h
  have hne : ∀ d : Char, d.isDigit = false → d ≠ '.' → c ≠ d := by
    rintro d hd hdot rfl
    rcases hc with hc | hc
    · rw [hd] at hc
      cases hc
    · exact hdot hc
  have hstop : isStop c = false := by
    rw [Bool.eq_false_iff]
    intro hs
    rcases isStop_iff.1 hs with hs | hs | hs
    · exact hne '\r' rfl (by decide) hs
    · exact hne '\n' rfl (by decide) hs
    · exact hne '\\' rfl (by decide) hs
  have hblank : ¬ isBlank c = true := by
    simp only [isBlank, Bool.or_eq_true, beq_iff_eq, not_or]
    exact ⟨⟨hne ' ' rfl (by decide), hne '\t' rfl (by decide)⟩, hne '\x0c' rfl (by decide)⟩
  have hmark : mark? c cs.head? = none := by
    rw [mark?, if_neg (hne '<' rfl (by decide)), if_neg (hne '>' rfl (by decide)),
      if_neg (hne '=' rfl (by decide)), if_neg (hne ':' rfl (by decide)),
      if_neg (hne '(' rfl (by decide)), if_neg (hne ')' rfl (by decide))]
  refine ⟨hstop, ?_⟩
  rw [rule?_cons hstop, if_neg (hne '+' rfl (by decide)), if_neg (hne '-' rfl (by decide)), hmark]
  simp only
  rw [if_neg hblank, if_pos h]

theorem rule?_word {c : Char} {cs : Text} (h : isIdentStart c = true) :
    isStop c = false ∧ rule? (c :: cs) = some (word (c :: cs)) := by
  have hne : ∀ d : Char, isIdentStart d = false → c ≠ d := by
    rintro d hd rfl
    rw [hd] at h
    cases h
  have hstop : isStop c = false := by
    rw [Bool.eq_false_iff]
    intro hs
    rw [isIdentStart_stop hs] at h
    cases h
  have hblank : ¬ isBlank c = true := by
    simp only [isBlank, Bool.or_eq_true, beq_iff_eq, not_or]
    exact ⟨⟨hne ' ' (by decide), hne '\t' (by decide)⟩, hne '\x0c' (by decide)⟩
  have hmark : mark? c cs.head? = none := by
    rw [mark?, if_neg (hne '<' (by decide)), if_neg (hne '>' (by decide)),
      if_neg (hne '=' (by decide)), if_neg (hne ':' (by decide)), if_neg (hne '(' (by decide)),
      if_neg (hne ')' (by decide))]
  have hnumber : ¬ startsNumber (c :: cs) = true := by
    rw [startsNumber_cons (hne '.' (by decide))]
    intro hd
    rw [Pattern.isIdentStart_digit hd] at h
    cases h
  refine ⟨hstop, ?_⟩
  rw [rule?_cons hstop, if_neg (hne '+' (by decide)), if_neg (hne '-' (by decide)), hmark]
  simp only
  rw [if_neg hblank, if_neg hnumber, if_pos h]

theorem scan_inline {cs : Text} {r : Kind × Nat} (h : rule? cs = some r)
    (hs : startsToken cs = true) :
    scan .inline cs = r := by
  rw [scan]
  simp only [keyword?, hs, if_true, h, Option.getD_some]

theorem startsToken_number {cs : Text} (h : startsNumber cs = true) : startsToken cs = true := by
  cases cs with
  | nil => cases h
  | cons c cs => simp [startsToken, h]

/-- What the next token shows where it ends inside a text that is cut off behind it: a number in
front of the cut is seen as one, and a word is whole. -/
theorem inside_cut {y rest : Text} (hy : y ≠ []) (h : (scan .inline (y ++ rest)).2 ≤ y.length) :
    startsNumber (y ++ rest) = startsNumber y ∧ identLength (y ++ rest) = identLength y := by
  obtain ⟨c, y, rfl⟩ := List.exists_cons_of_ne_nil hy
  refine ⟨?_, settled_identLength (c :: y) rest ?_⟩
  · cases hn : startsNumber (c :: y ++ rest) with
    | true =>
      have hscan : scan .inline (c :: y ++ rest) = Number.scan (c :: y ++ rest) :=
        scan_inline (rule?_number hn).2 (startsToken_number hn)
      rw [hscan] at h
      exact (startsNumber_cut hn hy h).symm
    | false =>
      rw [Eq.comm, Bool.eq_false_iff]
      intro hstarts
      rw [startsNumber_append hstarts] at hn
      cases hn
  · by_cases hc : isIdentStart c = true
    · have hs : startsToken (c :: y ++ rest) = true := by simp [startsToken, hc]
      rw [List.cons_append] at h hs
      rw [scan_inline (rule?_word hc).2 hs] at h
      exact h
    · rw [List.cons_append, identLength, if_neg hc]
      exact Nat.zero_le _

theorem startsToken_append {u : Text} (h : startsToken u = true) (v : Text) :
    startsToken (u ++ v) = true := by
  cases u with
  | nil => cases h
  | cons c u =>
    rw [startsToken, Bool.or_eq_true, Bool.or_eq_true] at h
    rw [List.cons_append, startsToken, ← List.cons_append, Bool.or_eq_true, Bool.or_eq_true]
    exact h.imp_left (Or.imp_right fun h => startsNumber_append h v)

/-- A word that ends inside a text is the same when the text is cut off there. -/
theorem word_cut {u v : Text} (h : (word (u ++ v)).2 ≤ u.length) : word (u ++ v) = word u := by
  have hsettled := settled_identLength u v h
  rw [word, word, hsettled, List.take_append_of_le_length (identLength_le u)]

theorem signed_cut {operator : Kind} {w y rest : Text} {kind : Kind}
    (h : signed operator (w ++ (y ++ rest)) = (kind, 1 + w.length))
    (hnext : kind = operator → y ≠ [] → (scan .inline (y ++ rest)).2 ≤ y.length) :
    signed operator (w ++ y) = (kind, 1 + w.length) := by
  rw [← List.append_assoc] at h
  rw [signed] at h ⊢
  split_ifs at h with hn
  · -- a number right behind the sign
    simp only [Prod.mk.injEq] at h
    have hlen : (Number.scan (w ++ y ++ rest)).2 ≤ (w ++ y).length := by
      rw [List.length_append]
      omega
    have hpos := Number.scan_pos hn
    have hne : w ++ y ≠ [] := by
      intro hnil
      rw [hnil, List.length_nil, ← hnil] at hlen
      omega
    rw [if_pos (startsNumber_cut hn hne hlen), ← Number.scan_cut hlen]
    exact Prod.ext h.1 h.2
  · have hn' : ¬ startsNumber (w ++ y) = true := fun h => hn (startsNumber_append h rest)
    rw [if_neg hn']
    simp only at h ⊢
    split_ifs at h with hinf
    · -- an infinity right behind it
      obtain ⟨hk, hlen⟩ := Prod.mk.inj h
      have hle : identLength (w ++ y ++ rest) ≤ (w ++ y).length := by
        rw [List.length_append]
        omega
      have hsettled := settled_identLength (w ++ y) rest hle
      rw [hsettled] at hinf hlen
      rw [List.take_append_of_le_length (identLength_le _)] at hinf
      rw [if_pos hinf, hk, hlen]
    · obtain ⟨hk, hlen⟩ := Prod.mk.inj h
      obtain rfl : w = [] := List.length_eq_zero_iff.1 (by omega)
      rw [List.nil_append] at hinf ⊢
      by_cases hy : y = []
      · subst hy
        rw [if_neg (by decide), hk]
        rfl
      · rw [(inside_cut hy (hnext hk.symm hy)).2,
          List.take_append_of_le_length (identLength_le _)] at hinf
        rw [if_neg hinf, hk]
        rfl

theorem mark?_cut {c : Char} {next : Option Char} {kind : Kind}
    (h : mark? c next = some (kind, 1)) :
    mark? c none = some (kind, 1) := by
  rw [mark?] at h ⊢
  split_ifs at h ⊢ <;> simp_all

theorem mark?_eq_none {c : Char} {next : Option Char} (h : mark? c next = none)
    (next' : Option Char) :
    mark? c next' = none := by
  rw [mark?] at h ⊢
  split_ifs at h ⊢
  rfl

/-- A token taken by a lexical rule, in front of tokens that are left. -/
theorem rule?_cut {c : Char} {w y rest : Text} {kind : Kind} (hc : isStop c = false)
    (h : rule? (c :: w ++ (y ++ rest)) = some (kind, (c :: w).length))
    (hnext : kind = .plus ∨ kind = .minus → y ≠ [] → (scan .inline (y ++ rest)).2 ≤ y.length) :
    rule? (c :: w ++ y) = some (kind, (c :: w).length) := by
  rw [List.cons_append, rule?_cons hc, List.length_cons] at h
  rw [List.cons_append, rule?_cons hc, List.length_cons]
  by_cases h₁ : c = '+'
  · rw [if_pos h₁, Option.some.injEq, Nat.add_comm] at h
    rw [if_pos h₁, signed_cut h fun hk => hnext (.inl hk), Nat.add_comm]
  rw [if_neg h₁] at h
  rw [if_neg h₁]
  by_cases h₂ : c = '-'
  · rw [if_pos h₂, Option.some.injEq, Nat.add_comm] at h
    rw [if_pos h₂, signed_cut h fun hk => hnext (.inr hk), Nat.add_comm]
  rw [if_neg h₂] at h
  rw [if_neg h₂, ← List.append_assoc] at *
  cases hm : mark? c (w ++ y ++ rest).head? with
  | some mark =>
    rw [hm] at h
    simp only [Option.some.injEq] at h
    subst h
    by_cases hwy : w ++ y = []
    · obtain ⟨rfl, rfl⟩ := List.append_eq_nil_iff.1 hwy
      rw [List.nil_append, List.head?_nil, mark?_cut hm]
      rfl
    · rw [head?_cut hwy] at hm
      rw [hm]
  | none =>
    rw [hm] at h
    rw [mark?_eq_none hm]
    simp only at h ⊢
    by_cases hb : isBlank c = true
    · rw [if_pos hb, Option.some.injEq, Prod.mk.injEq] at h
      rw [if_pos hb, ← takeWhile_cut (u := w ++ y) (v := rest), h.1, h.2]
      rw [List.length_append]
      omega
    rw [if_neg hb] at h
    rw [if_neg hb]
    by_cases hn : startsNumber (c :: (w ++ y ++ rest)) = true
    · rw [if_pos hn, Option.some.injEq] at h
      have hlen : (Number.scan (c :: (w ++ y) ++ rest)).2 ≤ (c :: (w ++ y)).length := by
        rw [List.cons_append, h, List.length_cons, List.length_append]
        omega
      rw [if_pos (startsNumber_cut hn (List.cons_ne_nil _ _) hlen), ← Number.scan_cut hlen,
        List.cons_append, h]
    rw [if_neg hn] at h
    rw [if_neg fun hstarts => hn (startsNumber_append hstarts rest)]
    split_ifs at h ⊢
    rw [Option.some.injEq] at h
    rw [← word_cut (u := c :: (w ++ y)) (v := rest), List.cons_append, h]
    rw [List.cons_append, h, List.length_cons, List.length_append]
    omega

theorem rule?_of_not_startsToken {c : Char} {cs : Text} (hc : isStop c = false)
    (h : startsToken (c :: cs) = false) : rule? (c :: cs) = none := by
  rw [startsToken, Bool.or_eq_false_iff, Bool.or_eq_false_iff] at h
  obtain ⟨⟨hstart, hnumber⟩, hident⟩ := h
  have hne : ∀ d ∈ tokenStarts, c ≠ d := by
    rintro d hd rfl
    rw [List.contains_iff_mem.2 hd] at hstart
    cases hstart
  have hblank : ¬ isBlank c = true := by
    simp only [isBlank, Bool.or_eq_true, beq_iff_eq, not_or]
    exact ⟨⟨hne ' ' (by decide), hne '\t' (by decide)⟩, hne '\x0c' (by decide)⟩
  have hmark : mark? c cs.head? = none := by
    rw [mark?, if_neg (hne '<' (by decide)), if_neg (hne '>' (by decide)),
      if_neg (hne '=' (by decide)), if_neg (hne ':' (by decide)), if_neg (hne '(' (by decide)),
      if_neg (hne ')' (by decide))]
  rw [rule?_cons hc, if_neg (hne '+' (by decide)), if_neg (hne '-' (by decide)), hmark]
  simp only [hblank, hnumber, hident, Bool.false_eq_true, if_false]

/-- Without a keyword, a token is what a lexical rule takes, or all up to the next token. -/
theorem scan_eq_getD {mode : Mode} {c : Char} {cs : Text} (hc : isStop c = false)
    (hk : keyword? mode (c :: cs) = none) :
    scan mode (c :: cs) = (rule? (c :: cs)).getD (.errorToken, errorLength (c :: cs)) := by
  rw [scan, hk]
  simp only
  split_ifs with h
  · rfl
  · rw [rule?_of_not_startsToken hc (by simpa using h)]
    rfl

theorem rule?_eq_none_cut {c : Char} {u v : Text} (hc : isStop c = false)
    (h : rule? (c :: u ++ v) = none) : rule? (c :: u) = none := by
  refine rule?_of_not_startsToken hc ?_
  rw [Bool.eq_false_iff]
  intro hs
  obtain ⟨r, hr⟩ := exists_rule?_of_startsToken (startsToken_append hs v)
  rw [h] at hr
  cases hr

/-- The characters up to the next token, in front of tokens that are left. -/
theorem lengthToToken_cut {w y rest : Text} (h : lengthToToken (w ++ (y ++ rest)) = w.length)
    (hnext : y ≠ [] → (scan .inline (y ++ rest)).2 ≤ y.length) :
    lengthToToken (w ++ y) = w.length := by
  induction w with
  | nil =>
    cases y with
    | nil => rfl
    | cons c y =>
      have hs : startsToken (c :: (y ++ rest)) = true := by
        by_contra hs
        rw [List.nil_append, List.cons_append, lengthToToken, if_neg hs, List.length_nil] at h
        omega
      -- a number that begins here is seen to begin
      have hnumber := (inside_cut (List.cons_ne_nil c y) (hnext (List.cons_ne_nil c y))).1
      rw [List.cons_append] at hnumber
      rw [startsToken, hnumber, ← startsToken] at hs
      rw [List.nil_append, lengthToToken, if_pos hs]
      rfl
  | cons c w ih =>
    have hs : ¬ startsToken (c :: (w ++ (y ++ rest))) = true := by
      intro hs
      rw [List.cons_append, lengthToToken, if_pos hs, List.length_cons] at h
      omega
    have hs' : ¬ startsToken (c :: (w ++ y)) = true := by
      intro hs'
      have happend := startsToken_append hs' rest
      rw [List.cons_append, List.append_assoc] at happend
      exact hs happend
    rw [List.cons_append, lengthToToken, if_neg hs, List.length_cons] at h
    rw [List.cons_append, lengthToToken, if_neg hs', ih (by omega), List.length_cons, Nat.add_comm]

/-- A comment, in front of tokens that are left. -/
theorem scan_cut_of_backslash {mode : Mode} {w y rest : Text} {kind : Kind}
    (h : scan mode ('\\' :: w ++ (y ++ rest)) = (kind, ('\\' :: w).length)) :
    scan mode ('\\' :: w ++ y) = (kind, ('\\' :: w).length) := by
  rw [List.cons_append, ← List.append_assoc] at h
  by_cases hstar : (w ++ y ++ rest).head? = some '*'
  · by_cases hyr : y ++ rest = []
    · obtain ⟨rfl, rfl⟩ := List.append_eq_nil_iff.1 hyr
      simpa using h
    · obtain ⟨v, hv⟩ : ∃ v, w ++ y ++ rest = '*' :: v := by
        cases hwyr : w ++ y ++ rest with
        | nil => simp [hwyr] at hstar
        | cons d v =>
          rw [hwyr] at hstar
          cases hstar
          exact ⟨v, rfl⟩
      have hkind : kind = .blockComment := by
        rw [hv, scan_blockComment] at h
        exact (Prod.mk.inj h).1.symm
      rw [hkind, List.append_assoc, ← List.cons_append] at h
      rw [hkind]
      exact scan_append_eq h (List.cons_ne_nil _ _)
        (.inr (seals_of_blockComment h (List.cons_ne_nil _ _) hyr y))
  · rw [scan_lineComment mode hstar, Prod.mk.injEq, List.length_cons] at h
    have hstar' : (w ++ y).head? ≠ some '*' := by
      intro hhead
      have hne : w ++ y ≠ [] := by
        rintro hnil
        rw [hnil] at hhead
        cases hhead
      rw [head?_cut hne] at hstar
      exact hstar hhead
    have hlen : (w ++ y).length = w.length + y.length := List.length_append
    have hcut := takeWhile_cut (p := fun c => !isLineEnd c) (u := w ++ y) (v := rest) (by omega)
    rw [List.cons_append, scan_lineComment mode hstar', ← hcut, h.1, h.2, List.length_cons]

/-- A line end or a comment, in front of tokens that are left. -/
theorem scan_cut_of_stop {mode : Mode} {c : Char} {w y rest : Text} {kind : Kind}
    (hc : isStop c = true) (h : scan mode (c :: w ++ (y ++ rest)) = (kind, (c :: w).length)) :
    scan mode (c :: w ++ y) = (kind, (c :: w).length) := by
  rcases isStop_iff.1 hc with rfl | rfl | rfl
  · rw [List.cons_append, ← List.append_assoc] at h
    rw [List.cons_append]
    by_cases hwy : w ++ y = []
    · -- the carriage return is all that is left
      obtain ⟨rfl, rfl⟩ := List.append_eq_nil_iff.1 hwy
      rw [List.nil_append, List.nil_append, List.length_singleton] at h
      rw [List.nil_append, scan_return mode (by simp)]
      by_cases hrest : rest.head? = some '\n'
      · obtain ⟨v, rfl⟩ : ∃ v, rest = '\n' :: v := by
          cases rest with
          | nil => cases hrest
          | cons d v =>
            cases hrest
            exact ⟨v, rfl⟩
        rw [scan_return_lineFeed] at h
        simp at h
      · rw [scan_return mode hrest] at h
        rw [(Prod.mk.inj h).1]
        rfl
    · obtain ⟨d, v, hv⟩ := List.exists_cons_of_ne_nil hwy
      rw [hv] at h ⊢
      by_cases hd : d = '\n'
      · subst hd
        rw [List.cons_append, scan_return_lineFeed] at h
        rw [scan_return_lineFeed, h]
      · have hhead : ∀ v : Text, (d :: v).head? ≠ some '\n' := fun v he => hd (Option.some.inj he)
        rw [List.cons_append, scan_return mode (hhead _)] at h
        rw [scan_return mode (hhead _), h]
  · rw [List.cons_append, scan_lineFeed] at h ⊢
    exact h
  · exact scan_cut_of_backslash h

/-- **A token is the same when the text is cut off behind it**, or behind other tokens that follow.
A keyword must not come up: the word in front of the cut did not go on, or a colon comes before. -/
theorem scan_cut {mode : Mode} {x y rest : Text} {kind : Kind}
    (h : scan mode (x ++ (y ++ rest)) = (kind, x.length)) (hx : x ≠ [])
    (hkind : kind.isSectionKeyword = false)
    (hend : mode = .statementStart → rest.head?.any isIdentContinue = false ∨ ':' ∈ x ++ y)
    (hnext : y ≠ [] → (scan (mode.next kind) (y ++ rest)).2 ≤ y.length) :
    scan mode (x ++ y) = (kind, x.length) := by
  obtain ⟨c, w, rfl⟩ := List.exists_cons_of_ne_nil hx
  by_cases hc : isStop c = true
  · exact scan_cut_of_stop hc h
  rw [Bool.not_eq_true] at hc
  have hkey : keyword? mode (c :: w ++ (y ++ rest)) = none := by
    by_contra hne
    obtain ⟨r, hr⟩ := Option.ne_none_iff_exists'.1 hne
    rw [scan, hr] at h
    simp only at h
    cases mode with
    | inline => cases hr
    | statementStart =>
      rw [h] at hr
      rw [Grammar.matchKeyword?_isSectionKeyword hr] at hkind
      cases hkind
  have hkey' : keyword? mode (c :: w ++ y) = none := by
    cases mode with
    | inline => rfl
    | statementStart =>
      rw [← List.append_assoc] at hkey
      exact Grammar.matchKeyword?_cut hkey (hend rfl)
  rw [List.cons_append] at hkey hkey'
  rw [List.cons_append, scan_eq_getD hc hkey] at h
  rw [List.cons_append, scan_eq_getD hc hkey']
  cases hr : rule? (c :: (w ++ (y ++ rest))) with
  | some r =>
    rw [hr, Option.getD_some] at h
    subst h
    have hrule : rule? (c :: w ++ y) = some (kind, (c :: w).length) := by
      refine rule?_cut hc hr fun hop => ?_
      have hmode : mode.next kind = .inline := by
        rcases hop with rfl | rfl <;> cases mode <;> rfl
      rwa [hmode] at hnext
    rw [List.cons_append] at hrule
    rw [hrule]
    rfl
  | none =>
    rw [hr, Option.getD_none, Prod.mk.injEq, errorLength, List.length_cons] at h
    obtain ⟨rfl, hlen⟩ := h
    have hnone : rule? (c :: (w ++ y)) = none := by
      rw [← List.append_assoc, ← List.cons_append] at hr
      exact rule?_eq_none_cut hc hr
    have hmode : mode.next .errorToken = .inline := by cases mode <;> rfl
    rw [hmode] at hnext
    rw [hnone, Option.getD_none, errorLength, lengthToToken_cut (by omega) hnext, List.length_cons,
      Nat.add_comm]

end Lexeme

namespace Lexeme

/-- Whether tokens of a kind stand inside a line and are seen by the grammar. -/
def isPlain (kind : Kind) : Bool := !kind.isTrivia && !Grammar.statementEnd.contains kind

theorem not_isPlain_of_keyword {kind : Kind} (h : kind.isSectionKeyword = true) :
    isPlain kind = false := by
  rw [isPlain, Grammar.contains_statementEnd.2 (.inr (.inr h)), Bool.not_true, Bool.and_false]

theorem isPlain_number (cs : Text) :
    isPlain (Number.scan cs).1 = true ∧ (Number.scan cs).1 ≠ .colon := by
  rw [Number.scan]
  split_ifs <;> exact ⟨rfl, Kind.noConfusion⟩

theorem isPlain_signed {operator : Kind} (h : isPlain operator = true ∧ operator ≠ .colon)
    (cs : Text) : isPlain (signed operator cs).1 = true ∧ (signed operator cs).1 ≠ .colon := by
  rw [signed]
  split_ifs
  · exact isPlain_number cs
  · simp only
    split_ifs
    · exact ⟨rfl, Kind.noConfusion⟩
    · exact h

/-- Keywords come from the table of keywords only, other kinds that are not plain from stops and
blanks, and colons from colons. -/
theorem rule?_isPlain {c : Char} (hc : isStop c = false) {cs : Text} {r : Kind × Nat}
    (h : rule? (c :: cs) = some r) :
    isPlain r.1 = true ∧ (r.1 = .colon → c = ':') ∨ isBlank c = true ∧ r.1 = .whitespace := by
  have hplain : ∀ {k : Kind}, isPlain k = true ∧ k ≠ .colon →
      isPlain k = true ∧ (k = .colon → c = ':') := fun h => ⟨h.1, fun hk => absurd hk h.2⟩
  rw [rule?_cons hc] at h
  by_cases h₁ : c = '+'
  · rw [if_pos h₁, Option.some.injEq] at h
    exact .inl (h ▸ hplain (isPlain_signed ⟨rfl, Kind.noConfusion⟩ cs))
  by_cases h₂ : c = '-'
  · rw [if_neg h₁, if_pos h₂, Option.some.injEq] at h
    exact .inl (h ▸ hplain (isPlain_signed ⟨rfl, Kind.noConfusion⟩ cs))
  rw [if_neg h₁, if_neg h₂] at h
  cases hm : mark? c cs.head? with
  | some mark =>
    rw [hm, Option.some.injEq] at h
    subst h
    rw [mark?] at hm
    split_ifs at hm <;> cases hm <;>
      exact .inl ⟨rfl, fun hk => by first | assumption | cases hk⟩
  | none =>
    rw [hm] at h
    simp only at h
    split_ifs at h with hb <;> cases h
    · exact .inr ⟨hb, rfl⟩
    · exact .inl (hplain (isPlain_number _))
    · refine .inl (hplain ?_)
      rw [word]
      split_ifs <;> exact ⟨rfl, Kind.noConfusion⟩

/-- Inside a line, a character that continues a word begins a token that the grammar sees. -/
theorem isPlain_of_identContinue {c : Char} (hc : isIdentContinue c = true) (cs : Text) :
    isPlain (scan .inline (c :: cs)).1 = true := by
  have hstop : isStop c = false := by
    rw [Bool.eq_false_iff]
    intro hs
    rw [isIdentContinue_stop hs] at hc
    cases hc
  rw [scan_eq_getD hstop rfl]
  cases hr : rule? (c :: cs) with
  | none => rfl
  | some r =>
    rcases rule?_isPlain hstop hr with ⟨h, _⟩ | ⟨hb, _⟩
    · exact h
    · simp only [isBlank, Bool.or_eq_true, beq_iff_eq] at hb
      exfalso
      rcases hb with (rfl | rfl) | rfl <;> revert hc <;> decide

/-- A token that is a colon begins with one. -/
theorem eq_colon_of_scan {mode : Mode} {c : Char} {cs : Text} {n : Nat}
    (h : scan mode (c :: cs) = (.colon, n)) : c = ':' := by
  have hc : isStop c = false := by
    rw [Bool.eq_false_iff]
    intro hc
    rcases scan_stop_cases mode hc cs with ⟨n, hn, _⟩ | ⟨n, hn, _⟩ | ⟨n, hn, _⟩ <;>
      · rw [hn] at h
        cases h
  have hkey : keyword? mode (c :: cs) = none := by
    by_contra hne
    obtain ⟨r, hr⟩ := Option.ne_none_iff_exists'.1 hne
    rw [scan, hr] at h
    simp only at h
    cases mode with
    | inline => cases hr
    | statementStart =>
      rw [h] at hr
      have hword := Grammar.matchKeyword?_isSectionKeyword hr
      cases hword
  rw [scan_eq_getD hc hkey] at h
  cases hr : rule? (c :: cs) with
  | none =>
    rw [hr] at h
    cases h
  | some r =>
    rw [hr, Option.getD_some] at h
    rcases rule?_isPlain hc hr with ⟨_, hcolon⟩ | ⟨_, hk⟩
    · exact hcolon (congrArg Prod.fst h)
    · rw [h] at hk
      cases hk

/-- A keyword is the same keyword in front of a line end or a comment. -/
theorem scan_keyword {mode : Mode} {x rest : Text} {kind : Kind}
    (h : scan mode (x ++ rest) = (kind, x.length)) (hx : x ≠ [])
    (hkind : kind.isSectionKeyword = true) {s : Char} (hs : isStop s = true) (v : Text) :
    scan .statementStart (x ++ s :: v) = (kind, x.length) := by
  obtain ⟨c, w, rfl⟩ := List.exists_cons_of_ne_nil hx
  have hc : isStop c = false := by
    rw [Bool.eq_false_iff]
    intro hc
    have hcases := scan_stop_cases mode hc (w ++ rest)
    rw [← List.cons_append, h] at hcases
    rcases hcases with ⟨n, hn, _⟩ | ⟨n, hn, _⟩ | ⟨n, hn, _⟩ <;>
      · rw [(Prod.mk.inj hn).1] at hkind
        cases hkind
  have hkey : keyword? mode (c :: w ++ rest) = some (kind, (c :: w).length) := by
    cases hkey : keyword? mode (c :: w ++ rest) with
    | some r =>
      rw [scan, hkey] at h
      rw [← h]
    | none =>
      rw [List.cons_append] at h hkey
      rw [scan_eq_getD hc hkey] at h
      cases hr : rule? (c :: (w ++ rest)) with
      | some r =>
        rw [hr, Option.getD_some] at h
        rcases rule?_isPlain hc hr with ⟨hplain, _⟩ | ⟨_, hk⟩
        · rw [h, not_isPlain_of_keyword hkind] at hplain
          cases hplain
        · rw [show kind = .whitespace from (congrArg Prod.fst h).symm.trans hk] at hkind
          cases hkind
      | none =>
        rw [hr, Option.getD_none] at h
        rw [← (Prod.mk.inj h).1] at hkind
        cases hkind
  have hmatch : Grammar.matchKeyword? (c :: w ++ rest) = some (kind, (c :: w).length) := by
    cases mode with
    | inline => cases hkey
    | statementStart => exact hkey
  have hun : Unstopped (c :: w) := unstopped_of_scan hc h
  have hfound : keyword? .statementStart (c :: w ++ s :: v) = some (kind, (c :: w).length) :=
    (Grammar.blind_matchKeyword? (c :: w) s v hun hs).trans (Grammar.matchKeyword?_take hmatch)
  rw [scan, hfound]

end Lexeme

/-! ## Reading -/

namespace Reader

open Reads (textOf)

/-- The first of some tokens ends with them or before. -/
theorem Reads.scan_head_le {r r' : Reader} {mode mode' : Mode} {ts : List Token}
    (h : Reads r mode ts r' mode') (hne : textOf ts ≠ []) :
    (Lexeme.scan mode (textOf ts ++ r'.rest)).2 ≤ (textOf ts).length := by
  have hrest := h.rest_eq
  cases h with
  | nil => exact absurd rfl hne
  | @cons _ _ _ _ ts hr hts =>
    rw [← hrest, (yields_next mode hr).scan, textOf_cons, List.length_append]
    exact Nat.le_add_right _ _

/-- **All tokens are the same when the text is cut off behind them.** Where a keyword could stand,
no word goes on behind the cut, or a colon follows before it. -/
theorem Reads.cut {r r' : Reader} {mode mode' : Mode} {ts : List Token}
    (h : Reads r mode ts r' mode') (hkind : ∀ t ∈ ts, t.kind.isSectionKeyword = false)
    (hend : ∀ pre us, ts = pre ++ us → us ≠ [] →
      pre.foldl (fun m t => m.next t.kind) mode = .statementStart →
        r'.rest.head?.any isIdentContinue = false ∨ ':' ∈ textOf us) :
    Reads ⟨textOf ts, r.position⟩ mode ts ⟨[], r'.position⟩ mode' := by
  induction h with
  | nil r mode => exact .nil _ _
  | @cons r r' mode mode' ts hne hts ih =>
    have hyield := yields_next mode hne
    have ih := ih (List.forall_mem_cons.1 hkind).2 fun pre us hsplit hus hmode =>
      hend ((r.next mode).1 :: pre) us (congrArg _ hsplit) hus hmode
    have hscan := hyield.scan
    rw [hyield.rest, hts.rest_eq] at hscan
    have hcut : Lexeme.scan mode ((r.next mode).1.text ++ textOf ts) =
        ((r.next mode).1.kind, (r.next mode).1.text.length) := by
      refine Lexeme.scan_cut hscan hyield.text_ne (List.forall_mem_cons.1 hkind).1 (fun hmode => ?_)
        hts.scan_head_le
      rw [← textOf_cons]
      exact hend [] _ rfl (List.cons_ne_nil _ _) hmode
    rw [textOf_cons]
    exact .cons_of_scan hne hcut ih

end Reader

end LpFormat
