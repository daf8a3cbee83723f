import LpFormat.Proofs.Token.Settled

/-!
# The longest keyword at the start of a text

What a keyword is in a text is said by its words, apart from how the scanner walks them.

* `Keyword.Spelled`, `Keyword.ColonAhead`, `Keyword.Matches`: the words of a keyword in letters of
  either case, a colon behind spaces and tabs, and a keyword at the start of a text with its length
  in bytes;
* `Keyword.wordsLength?_eq_some_iff`, `Keyword.matchLength?_eq_some_iff`: the scanner finds a
  keyword of ASCII words where it matches, with the length of the match;
* `Keyword.Precedes`, `Grammar.keywords_ordered`: of two entries of the table whose first words
  begin alike the one that can match more stands first, `Keyword.Matches.lt`;
* **`Grammar.matchKeyword?_longest`**: the first entry of the table that matches is the longest
  match of all.
-/

namespace LpFormat

/-! ## Characters of one byte -/

theorem Text.byteSize_eq_length {u : Text} (h : ∀ c ∈ u, c.utf8Size = 1) :
    byteSize u = u.length := by
  induction u with
  | nil => rfl
  | cons c u ih =>
    rw [byteSize_cons, h c List.mem_cons_self, ih fun d hd => h d (List.mem_cons_of_mem _ hd),
      List.length_cons, Nat.add_comm]

theorem Text.length_le_byteSize (u : Text) : u.length ≤ byteSize u := by
  induction u with
  | nil => exact Nat.le_refl _
  | cons c u ih =>
    have := c.utf8Size_pos
    rw [byteSize_cons, List.length_cons]
    omega

theorem utf8Size_of_isGap {c : Char} (h : isGap c = true) : c.utf8Size = 1 := by
  rw [isGap, Bool.or_eq_true, beq_iff_eq, beq_iff_eq] at h
  rcases h with rfl | rfl <;> rfl

/-! ## Gaps -/

/-- The gap at the start of a text. -/
theorem exists_gap (cs : Text) : ∃ gap, cs = gap ++ cs.drop (gapLength cs) ∧
    (∀ c ∈ gap, isGap c = true) ∧ gap.length = gapLength cs := by
  refine ⟨cs.take (gapLength cs), (List.take_append_drop _ _).symm, fun c hc => ?_,
    List.length_take_of_le (gapLength_le cs)⟩
  rw [gapLength, ← List.prefix_iff_eq_take.1 (List.takeWhile_prefix _)] at hc
  exact List.mem_takeWhile_imp hc

theorem gapLength_of_blank {gap rest : Text} (hgap : ∀ c ∈ gap, isGap c = true)
    (hrest : ∀ c ∈ rest.head?, isGap c = false) : gapLength (gap ++ rest) = gap.length := by
  have hnil : rest.takeWhile isGap = [] := by
    cases rest with
    | nil => rfl
    | cons c cs =>
      rw [List.takeWhile_cons, hrest c rfl]
      rfl
  rw [gapLength, List.takeWhile_append_of_pos hgap, hnil, List.append_nil]

namespace Keyword

/-! ## Keywords by their words -/

/-- The text spells the words in letters of either case, with spaces or tabs between them. -/
inductive Spelled : List String → Text → Prop
  | last {w : String} {u : Text} (word : Text.sameLetters u w.toList = true) : Spelled [w] u
  | more {w : String} {ws : List String} {u gap v : Text}
      (word : Text.sameLetters u w.toList = true) (blank : ∀ c ∈ gap, isGap c = true)
      (apart : gap ≠ []) (rest : Spelled ws v) : Spelled (w :: ws) (u ++ (gap ++ v))

/-- The text goes on with a colon, behind nothing but spaces and tabs. -/
def ColonAhead (rest : Text) : Prop :=
  ∃ gap after, (∀ c ∈ gap, isGap c = true) ∧ rest = gap ++ ':' :: after

/-- The keyword stands at the start of a text, with its length in bytes: its words, which do not run
on into an identifier, and the colon ahead if it allows one. -/
inductive Matches (k : Keyword) : Text → Nat → Prop
  | plain {body rest : Text} (spelled : Spelled k.words body)
      (ends : ∀ c ∈ rest.head?, isIdentContinue c = false)
      (no_colon : k.allowsColon = true → ¬ ColonAhead rest) :
      Matches k (body ++ rest) (Text.byteSize body)
  | colon {body gap after : Text} (spelled : Spelled k.words body) (allowed : k.allowsColon = true)
      (blank : ∀ c ∈ gap, isGap c = true) :
      Matches k (body ++ (gap ++ ':' :: after)) (Text.byteSize (body ++ (gap ++ [':'])))

theorem colonAhead_iff {rest : Text} :
    ColonAhead rest ↔ (rest.drop (gapLength rest)).head? = some ':' := by
  constructor
  · rintro ⟨gap, after, hgap, rfl⟩
    rw [gapLength_of_blank hgap (by rintro c ⟨⟩; rfl), List.drop_left]
    rfl
  · intro h
    obtain ⟨after, hafter⟩ := List.head?_eq_some_iff.1 h
    obtain ⟨gap, hcut, hblank, -⟩ := exists_gap rest
    exact ⟨gap, after, hblank, hafter ▸ hcut⟩

/-- A word that a keyword may have: not empty, in ASCII, and without the blanks between words. -/
def IsWord (w : String) : Prop :=
  w.toList ≠ [] ∧ ∀ c ∈ w.toList, c.toLower.utf8Size = 1 ∧ isGap c.toLower = false

/-- Lower case changes none but letters. -/
theorem toLower_cases (c : Char) : c.utf8Size = 1 ∧ isGap c = false ∨ c.toLower = c := by
  by_cases hu : c.val ≥ 'A'.val ∧ c.val ≤ 'Z'.val
  · refine .inl ⟨?_, ?_⟩
    · rw [Char.utf8Size_eq_one_iff]
      exact UInt32.le_trans hu.2 (by decide)
    · have hne : ∀ d : Char, d.val < 'A'.val → (c == d) = false := by
        intro d hd
        rw [beq_eq_false_iff_ne]
        rintro rfl
        exact absurd hu.1 (UInt32.not_le.2 hd)
      rw [isGap, hne _ (by decide), hne _ (by decide)]
      rfl
  · exact .inr (dif_neg hu)

/-- Letters of either case take as many bytes, and none of them is a blank. -/
theorem IsWord.letters {w : String} {u : Text} (hw : IsWord w)
    (h : Text.sameLetters u w.toList = true) : ∀ c ∈ u, c.utf8Size = 1 ∧ isGap c = false := by
  intro c hc
  rw [Text.sameLetters, beq_iff_eq] at h
  have hmem : c.toLower ∈ w.toList.map Char.toLower := h ▸ List.mem_map_of_mem hc
  obtain ⟨d, hd, he⟩ := List.mem_map.1 hmem
  rcases toLower_cases c with hu | hself
  · exact hu
  · rw [← hself, ← he]
    exact hw.2 d hd

namespace Spelled

variable {words : List String} {body : Text}

theorem ne_nil (h : Spelled words body) : words ≠ [] := by
  cases h <;> exact List.cons_ne_nil _ _

theorem byteSize (h : Spelled words body) (hw : ∀ w ∈ words, IsWord w) :
    Text.byteSize body = body.length := by
  induction h with
  | last word => exact Text.byteSize_eq_length fun c hc => ((hw _ (by simp)).letters word c hc).1
  | more word blank apart rest ih =>
    rw [Text.byteSize_append, Text.byteSize_append, List.length_append, List.length_append,
      Text.byteSize_eq_length fun c hc => ((hw _ (by simp)).letters word c hc).1,
      Text.byteSize_eq_length fun c hc => utf8Size_of_isGap (blank c hc),
      ih fun w hmem => hw w (List.mem_cons_of_mem _ hmem)]

/-- What spells words begins with the first of them. -/
theorem exists_first {w : String} {ws : List String} (h : Spelled (w :: ws) body) :
    ∃ u v, body = u ++ v ∧ Text.sameLetters u w.toList = true := by
  cases h with
  | last word => exact ⟨body, [], (List.append_nil _).symm, word⟩
  | more word _ _ _ => exact ⟨_, _, rfl, word⟩

/-- What spells words begins with no blank. -/
theorem isGap_head (h : Spelled words body) (hw : ∀ w ∈ words, IsWord w) (rest : Text) :
    ∀ c ∈ (body ++ rest).head?, isGap c = false := by
  cases words with
  | nil => exact absurd rfl h.ne_nil
  | cons w ws =>
    obtain ⟨u, v, rfl, word⟩ := h.exists_first
    have hword := hw w List.mem_cons_self
    cases u with
    | nil => exact absurd (length_eq_of_sameLetters word).symm (by simpa using hword.1)
    | cons c u =>
      rintro d ⟨⟩
      exact (hword.letters word _ List.mem_cons_self).2

end Spelled

/-! ## The scanner -/

theorem wordsLength?_of_spelled {words : List String} {body : Text} (h : Spelled words body)
    (hw : ∀ w ∈ words, IsWord w) (rest : Text) :
    wordsLength? words (body ++ rest) = some body.length := by
  induction h with
  | last word =>
    rw [wordsLength?, ← length_eq_of_sameLetters word, List.take_left, if_pos word]
  | @more w ws u gap v word blank apart spelled ih =>
    have hw' : ∀ w ∈ ws, IsWord w := fun w hmem => hw w (List.mem_cons_of_mem _ hmem)
    cases ws with
    | nil => exact absurd rfl spelled.ne_nil
    | cons next more =>
      have hgap : gapLength (gap ++ (v ++ rest)) = gap.length :=
        gapLength_of_blank blank (spelled.isGap_head hw' rest)
      have hpos : gap.length ≠ 0 := fun hnil => apart (List.length_eq_zero_iff.1 hnil)
      rw [wordsLength?, List.append_assoc, List.append_assoc, ← length_eq_of_sameLetters word,
        List.take_left, if_pos word]
      simp only [List.drop_left]
      rw [hgap, if_neg hpos, List.drop_left, ih hw', Option.map_some, List.length_append,
        List.length_append, Nat.add_assoc]

theorem spelled_of_wordsLength? {words : List String} {cs : Text} {m : Nat} (hne : words ≠ [])
    (h : wordsLength? words cs = some m) :
    ∃ body rest, cs = body ++ rest ∧ Spelled words body ∧ body.length = m := by
  induction words generalizing cs m with
  | nil => exact absurd rfl hne
  | cons word words ih =>
    rw [wordsLength?] at h
    split at h
    · rename_i hsame
      have hlen := length_eq_of_sameLetters hsame
      cases words with
      | nil =>
        refine ⟨_, _, (List.take_append_drop word.toList.length cs).symm, .last hsame, ?_⟩
        rw [hlen]
        exact Option.some.inj h
      | cons next more =>
        simp only at h
        split_ifs at h with hgap
        obtain ⟨k, hk, rfl⟩ := Option.map_eq_some_iff.1 h
        obtain ⟨v, rest, hsplit, spelled, rfl⟩ := ih (List.cons_ne_nil _ _) hk
        obtain ⟨gap, hcut, hblank, htake⟩ := exists_gap (cs.drop word.toList.length)
        refine ⟨_, rest, ?_, .more hsame hblank ?_ spelled, ?_⟩
        · rw [List.append_assoc, List.append_assoc, ← hsplit, ← hcut, List.take_append_drop]
        · rintro rfl
          exact hgap htake.symm
        · rw [List.length_append, List.length_append, hlen, htake, Nat.add_assoc]
    · cases h

variable {k : Keyword} {cs : Text} {n : Nat}

/-- The scanner finds a keyword where it matches, with the length of the match. -/
theorem matchLength?_eq_some_iff (hne : k.words ≠ []) (hw : ∀ w ∈ k.words, IsWord w) :
    k.matchLength? cs = some n ↔ k.Matches cs n := by
  have hgap {gap after : Text} (blank : ∀ c ∈ gap, isGap c = true) :
      gapLength (gap ++ ':' :: after) = gap.length :=
    gapLength_of_blank blank (by rintro c ⟨⟩; rfl)
  have hsize {body gap : Text} (spelled : Spelled k.words body)
      (blank : ∀ c ∈ gap, isGap c = true) :
      Text.byteSize (body ++ (gap ++ [':'])) = body.length + gap.length + 1 := by
    rw [Text.byteSize_append, Text.byteSize_append, spelled.byteSize hw,
      Text.byteSize_eq_length fun c hc => utf8Size_of_isGap (blank c hc), Nat.add_assoc]
    rfl
  constructor
  · intro h
    rw [matchLength?] at h
    cases hm : wordsLength? k.words cs with
    | none =>
      rw [hm] at h
      cases h
    | some m =>
      obtain ⟨body, rest, rfl, spelled, rfl⟩ := spelled_of_wordsLength? hne hm
      rw [hm] at h
      simp only [List.drop_left] at h
      split_ifs at h with hends hcolon
      · rw [Bool.and_eq_true, beq_iff_eq] at hcolon
        obtain ⟨gap, after, blank, rfl⟩ := colonAhead_iff.2 hcolon.2
        rw [hgap blank, ← hsize spelled blank] at h
        exact Option.some.inj h ▸ .colon spelled hcolon.1 blank
      · rw [← spelled.byteSize hw] at h
        refine Option.some.inj h ▸ .plain spelled (fun c hc => ?_) fun allowed ahead => hcolon ?_
        · rw [hc] at hends
          exact Bool.eq_false_iff.2 hends
        · rw [allowed, colonAhead_iff.1 ahead]
          rfl
  · rintro (@⟨body, rest, spelled, ends, no_colon⟩ | @⟨body, gap, after, spelled, allowed, blank⟩)
    · have hends : ¬ rest.head?.any isIdentContinue = true := by
        rw [Option.any_eq_true]
        rintro ⟨c, hc, hcont⟩
        exact Bool.eq_false_iff.1 (ends c hc) hcont
      have hcolon : ¬ (k.allowsColon && (rest.drop (gapLength rest)).head? == some ':') = true := by
        rw [Bool.and_eq_true, beq_iff_eq]
        rintro ⟨allowed, ahead⟩
        exact no_colon allowed (colonAhead_iff.2 ahead)
      rw [matchLength?, wordsLength?_of_spelled spelled hw]
      simp only [List.drop_left]
      rw [if_neg hends, if_neg hcolon, spelled.byteSize hw]
    · have hends : ¬ (gap ++ ':' :: after).head?.any isIdentContinue = true := by
        cases gap with
        | nil => exact Bool.false_ne_true
        | cons c gap =>
          have := blank c List.mem_cons_self
          rw [isGap, Bool.or_eq_true, beq_iff_eq, beq_iff_eq] at this
          rcases this with rfl | rfl <;> exact Bool.false_ne_true
      rw [matchLength?, wordsLength?_of_spelled spelled hw]
      simp only [List.drop_left]
      rw [if_neg hends, hgap blank, List.drop_left, allowed, hsize spelled blank]
      rfl

/-! ## The order of the table -/

/-- The first word of a keyword in lower case. -/
def lead (k : Keyword) : Text := (k.words.headD "").toList.map Char.toLower

/-- What spells a keyword begins with its first word. -/
theorem Spelled.exists_lead {body : Text} (h : Spelled k.words body) :
    ∃ u v, body = u ++ v ∧ u.map Char.toLower = k.lead := by
  cases hwords : k.words with
  | nil => exact absurd hwords h.ne_nil
  | cons w ws =>
    obtain ⟨u, v, rfl, word⟩ := (hwords ▸ h).exists_first
    rw [Text.sameLetters, beq_iff_eq] at word
    exact ⟨u, v, rfl, by rw [lead, hwords, List.headD_cons, word]⟩

theorem Spelled.lead_prefix {body : Text} (h : Spelled k.words body) (rest : Text) :
    k.lead <+: (body ++ rest).map Char.toLower := by
  obtain ⟨u, v, rfl, hlead⟩ := h.exists_lead
  rw [← hlead, List.append_assoc, List.map_append]
  exact List.prefix_append _ _

theorem Spelled.lead_le {body : Text} (h : Spelled k.words body) :
    k.lead.length ≤ Text.byteSize body := by
  obtain ⟨u, v, rfl, hlead⟩ := h.exists_lead
  rw [← hlead, List.length_map, Text.byteSize_append]
  exact Nat.le_add_right_of_le (Text.length_le_byteSize u)

theorem Matches.lead_prefix (h : k.Matches cs n) : k.lead <+: cs.map Char.toLower := by
  rcases h with ⟨spelled, -, -⟩ | ⟨spelled, -, -⟩
  · exact spelled.lead_prefix _
  · exact spelled.lead_prefix _

theorem Matches.lead_le (h : k.Matches cs n) : k.lead.length ≤ n := by
  rcases h with ⟨spelled, -, -⟩ | ⟨spelled, -, -⟩
  · exact spelled.lead_le
  · rw [Text.byteSize_append]
    exact Nat.le_add_right_of_le spelled.lead_le

/-- A keyword of one word takes no more than the word, unless it allows a colon. -/
theorem Matches.eq_lead (h : k.Matches cs n) (hw : ∀ w ∈ k.words, IsWord w)
    (hone : k.words.length = 1) (hcolon : k.allowsColon = false) : n = k.lead.length := by
  obtain ⟨w, hwords⟩ := List.length_eq_one_iff.1 hone
  rcases h with @⟨body, -, spelled, -, -⟩ | ⟨-, allowed, -⟩
  · rw [spelled.byteSize hw, lead, hwords, List.headD_cons, List.length_map]
    rw [hwords] at spelled
    cases spelled with
    | last word => exact length_eq_of_sameLetters word
    | more _ _ _ rest => exact absurd rfl rest.ne_nil
  · rw [hcolon] at allowed
    cases allowed

/-- The first entry does not begin the second; and if the second begins the first, it is one word
without a colon. -/
def Precedes (k k' : Keyword) : Prop :=
  ¬ k.lead <+: k'.lead ∧ (k'.lead <+: k.lead → k'.words.length = 1 ∧ k'.allowsColon = false)

instance (k k' : Keyword) : Decidable (k.Precedes k') := inferInstanceAs (Decidable (_ ∧ _))

/-- Where two entries match, the later one matches less. -/
theorem Matches.lt {k' : Keyword} {m : Nat} (h : k.Matches cs n) (h' : k'.Matches cs m)
    (hlt : k.Precedes k') (hw : ∀ w ∈ k'.words, IsWord w) : m < n := by
  rcases List.prefix_or_prefix_of_prefix h.lead_prefix h'.lead_prefix with hpre | hpre
  · exact absurd hpre hlt.1
  · obtain ⟨hone, hcolon⟩ := hlt.2 hpre
    have hne : k'.lead.length ≠ k.lead.length := fun hlen =>
      hlt.1 (hpre.eq_of_length hlen ▸ List.prefix_rfl)
    have hle := hpre.length_le
    have hm := h'.eq_lead hw hone hcolon
    have hn := h.lead_le
    omega

end Keyword

namespace Grammar

theorem keywords_isWord :
    ∀ k ∈ keywords, k.words ≠ [] ∧ ∀ w ∈ k.words, Keyword.IsWord w := by
  have h : (keywords.all fun k => !k.words.isEmpty && k.words.all fun w => !w.toList.isEmpty &&
      w.toList.all fun c => c.toLower.utf8Size == 1 && !isGap c.toLower) = true := by decide
  intro k hk
  have hwords := List.all_eq_true.1 h k hk
  simp only [List.all_eq_true, Bool.and_eq_true, Bool.not_eq_true', List.isEmpty_eq_false_iff,
    beq_iff_eq] at hwords
  exact ⟨hwords.1, fun w hw => hwords.2 w hw⟩

theorem keywords_ordered : keywords.Pairwise Keyword.Precedes := by decide

theorem matchLength?_iff_of_mem {k : Keyword} (hk : k ∈ keywords) {cs : Text} {n : Nat} :
    k.matchLength? cs = some n ↔ k.Matches cs n := by
  obtain ⟨hne, hw⟩ := keywords_isWord k hk
  exact Keyword.matchLength?_eq_some_iff hne hw

theorem matchKeyword?_eq_none_iff {cs : Text} :
    matchKeyword? cs = none ↔ ∀ k ∈ keywords, ∀ n, ¬ k.Matches cs n := by
  rw [matchKeyword?, List.findSome?_eq_none_iff]
  refine forall₂_congr fun k hk => ?_
  rw [Option.map_eq_none_iff, Option.eq_none_iff_forall_ne_some]
  exact forall_congr' fun n => not_congr (matchLength?_iff_of_mem hk)

/-- What is found matches, and no other entry matches as much. -/
theorem matches_of_matchKeyword? {cs : Text} {kind : Kind} {n : Nat}
    (h : matchKeyword? cs = some (kind, n)) :
    ∃ k ∈ keywords, k.kind = kind ∧ k.Matches cs n ∧
      ∀ k' ∈ keywords, ∀ m, k'.Matches cs m → k' = k ∧ m = n ∨ m < n := by
  obtain ⟨before, k, after, hsplit, hk, hbefore⟩ := List.findSome?_eq_some_iff.1 h
  obtain ⟨n', hn, he⟩ := Option.map_eq_some_iff.1 hk
  obtain ⟨rfl, rfl⟩ := Prod.mk.inj he
  have hmem : k ∈ keywords := hsplit ▸ List.mem_append_right _ List.mem_cons_self
  have hmatch := (matchLength?_iff_of_mem hmem).1 hn
  refine ⟨k, hmem, rfl, hmatch, fun k' hk' m hm => ?_⟩
  have hm' := (matchLength?_iff_of_mem hk').2 hm
  have hplace := hk'
  rw [hsplit, List.mem_append, List.mem_cons] at hplace
  rcases hplace with hfirst | rfl | hlater
  · have := hbefore k' hfirst
    rw [hm'] at this
    cases this
  · exact .inl ⟨rfl, Option.some.inj (hm'.symm.trans hn)⟩
  · have hordered := keywords_ordered
    rw [hsplit, List.pairwise_append, List.pairwise_cons] at hordered
    exact .inr (hmatch.lt hm (hordered.2.1.1 k' hlater) (keywords_isWord k' hk').2)

/-- **The keyword found at the start of a text is the longest of the table that stands there**, with
its length in bytes; none is found only where none stands. -/
theorem matchKeyword?_longest (cs : Text) :
    (matchKeyword? cs = none ↔ ∀ k ∈ keywords, ∀ n, ¬ k.Matches cs n) ∧
      ∀ kind n, matchKeyword? cs = some (kind, n) ↔
        (∃ k ∈ keywords, k.Matches cs n) ∧
          ∀ k ∈ keywords, ∀ m, k.Matches cs m → m ≤ n ∧ (m = n → k.kind = kind) := by
  refine ⟨matchKeyword?_eq_none_iff, fun kind n => ⟨fun h => ?_, ?_⟩⟩
  · obtain ⟨k, hk, hkind, hmatch, hmost⟩ := matches_of_matchKeyword? h
    refine ⟨⟨k, hk, hmatch⟩, fun k' hk' m hm => ?_⟩
    rcases hmost k' hk' m hm with ⟨rfl, rfl⟩ | hlt
    · exact ⟨Nat.le_refl _, fun _ => hkind⟩
    · exact ⟨hlt.le, fun he => absurd he hlt.ne⟩
  · rintro ⟨⟨k, hk, hmatch⟩, hmost⟩
    cases hfound : matchKeyword? cs with
    | none => exact absurd hmatch (matchKeyword?_eq_none_iff.1 hfound k hk n)
    | some found =>
      obtain ⟨kind', n'⟩ := found
      obtain ⟨k', hk', rfl, hmatch', hmost'⟩ := matches_of_matchKeyword? hfound
      obtain ⟨hle, hkind⟩ := hmost k' hk' n' hmatch'
      have hge : n ≤ n' := by
        rcases hmost' k hk n hmatch with ⟨-, rfl⟩ | hlt
        · exact Nat.le_refl _
        · exact hlt.le
      obtain rfl := Nat.le_antisymm hle hge
      rw [hkind rfl]

example : matchKeyword? "Subject \t TO :x".toList = some (.subjectToKw, 14) := by decide

end Grammar

end LpFormat
