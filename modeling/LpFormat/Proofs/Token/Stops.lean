import LpFormat.Proofs.Kind
import LpFormat.Token.Lexer
import Mathlib

/-!
# Characters that stop a token

A line end and a backslash stop every token that does not begin with one: what stands behind them
is not looked at, as if the text ended there.

* `isStop`: the characters that stop a token;
* `Blind`: functions that do not look past such a character, with `Lexeme.rule?`,
  `Grammar.matchKeyword?` and the functions they are made of;
* **`Lexeme.scan_append_stop`**: the next token of a text that goes on behind a stop is the next
  token of the text before it;
* `Lexeme.scan_kind`: the kinds that the reader gives;
* `Lexeme.scan_lineFeed`, `Lexeme.scan_return`, `Lexeme.scan_blockComment`,
  `Lexeme.scan_lineComment`: the tokens that begin with a stop.
-/

namespace LpFormat

/-- Line ends and the backslash that begins a comment. -/
def isStop (c : Char) : Bool := isLineEnd c || c == '\\'

theorem isStop_iff {c : Char} : isStop c = true ↔ c = '\r' ∨ c = '\n' ∨ c = '\\' := by
  simp [isStop, isLineEnd, or_assoc]

/-- No character of the text is a stop. -/
def Unstopped (a : Text) : Prop := ∀ c ∈ a, isStop c = false

theorem Unstopped.tail {c : Char} {a : Text} (h : Unstopped (c :: a)) : Unstopped a :=
  fun d hd => h d (List.mem_cons_of_mem _ hd)

theorem Unstopped.drop {a : Text} (h : Unstopped a) (n : Nat) : Unstopped (a.drop n) :=
  fun d hd => h d (List.mem_of_mem_drop hd)

/-- The function takes a stop for the end of the text. -/
def Blind {α : Type} (f : Text → α) : Prop :=
  ∀ (a : Text) (s : Char) (v : Text), Unstopped a → isStop s = true → f (a ++ s :: v) = f a

section Stops

variable {s : Char} (hs : isStop s = true)

include hs

theorem isDigit_stop : s.isDigit = false := by
  rcases isStop_iff.1 hs with rfl | rfl | rfl <;> rfl

theorem isGap_stop : isGap s = false := by
  rcases isStop_iff.1 hs with rfl | rfl | rfl <;> rfl

theorem isBlank_stop : isBlank s = false := by
  rcases isStop_iff.1 hs with rfl | rfl | rfl <;> rfl

theorem isIdentStart_stop : isIdentStart s = false := by
  rcases isStop_iff.1 hs with rfl | rfl | rfl <;> decide

theorem isIdentContinue_stop : isIdentContinue s = false := by
  rcases isStop_iff.1 hs with rfl | rfl | rfl <;> decide

theorem isSign_stop : Number.isSign s = false := by
  rcases isStop_iff.1 hs with rfl | rfl | rfl <;> rfl

theorem isDigitOrPoint_stop : Number.isDigitOrPoint s = false := by
  rcases isStop_iff.1 hs with rfl | rfl | rfl <;> rfl

theorem startsToken_stop (v : Text) : Lexeme.startsToken (s :: v) = true := by
  rcases isStop_iff.1 hs with rfl | rfl | rfl <;> rfl

end Stops

theorem ne_of_not_isStop {c d : Char} (hc : isStop c = false) (hd : isStop d = true) : c ≠ d := by
  rintro rfl
  simp [hc] at hd

/-! ## Runs of characters -/

theorem blind_takeWhile {p : Char → Bool} (hp : ∀ s, isStop s = true → p s = false) :
    Blind (List.takeWhile p) := by
  intro a s v _ hs
  rw [List.takeWhile_append, List.takeWhile_cons_of_neg (by simp [hp s hs])]
  split_ifs with h
  · rw [List.append_nil]
    exact ((List.takeWhile_sublist p).eq_of_length h).symm
  · rfl

theorem drop_append_stop {a : Text} {n : Nat} (hn : n ≤ a.length) (s : Char) (v : Text) :
    (a ++ s :: v).drop n = a.drop n ++ s :: v :=
  List.drop_append_of_le_length hn

theorem take_append_stop {a : Text} {n : Nat} (hn : n ≤ a.length) (s : Char) (v : Text) :
    (a ++ s :: v).take n = a.take n :=
  List.take_append_of_le_length hn

/-- What holds of the next character if there is one, and of no stop. -/
theorem head?_append_stop {a : Text} {s : Char} {v : Text} {p : Char → Bool} (hp : p s = false) :
    (a ++ s :: v).head?.any p = a.head?.any p := by
  cases a with
  | nil => simp [hp]
  | cons c a => rfl

theorem head?_append_stop_eq {a : Text} {s : Char} {v : Text} {d : Char} (hd : s ≠ d) :
    (a ++ s :: v).head? = some d ↔ a.head? = some d := by
  cases a with
  | nil => simp [hd]
  | cons c a => rfl

theorem takeWhile_length_le (p : Char → Bool) (a : Text) : (a.takeWhile p).length ≤ a.length :=
  (List.takeWhile_sublist p).length_le

/-! ## Numbers -/

namespace Number

theorem blind_digitsLength : Blind digitsLength := fun a s v ha hs => by
  rw [digitsLength, blind_takeWhile (fun s hs => isDigit_stop hs) a s v ha hs, digitsLength]

theorem digitsLength_le (a : Text) : digitsLength a ≤ a.length := takeWhile_length_le _ a

theorem mantissaLength_le (a : Text) : mantissaLength a ≤ a.length := by
  have hd := digitsLength_le a
  rw [mantissaLength]
  split
  · rename_i rest hrest
    have hlen := congrArg List.length hrest
    have hr := digitsLength_le rest
    simp only [List.length_drop, List.length_cons] at hlen
    omega
  · exact hd

theorem blind_mantissaLength : Blind mantissaLength := by
  intro a s v ha hs
  have hdot : s ≠ '.' := by
    rintro rfl
    simp [isStop, isLineEnd] at hs
  rw [mantissaLength, mantissaLength, blind_digitsLength a s v ha hs,
    drop_append_stop (digitsLength_le a)]
  have hdrop := ha.drop (digitsLength a)
  cases hd : a.drop (digitsLength a) with
  | nil =>
    simp only [List.nil_append]
    split
    · rename_i h
      exact absurd (List.cons.inj h).1 hdot
    · rfl
  | cons c rest =>
    rw [hd] at hdrop
    by_cases hc : c = '.'
    · subst hc
      simp only [List.cons_append, blind_digitsLength rest s v hdrop.tail hs]
    · simp only [List.cons_append]
      split
      · rename_i h
        exact absurd (List.cons.inj h).1 hc
      · split
        · rename_i h
          exact absurd (List.cons.inj h).1 hc
        · rfl

theorem signLength_le (a : Text) : signLength a ≤ a.length := by
  cases a with
  | nil => simp [signLength]
  | cons c a =>
    rw [signLength]
    split_ifs <;> simp

theorem blind_signLength : Blind signLength := fun a s v _ hs => by
  rw [signLength, head?_append_stop (isSign_stop hs), signLength]

theorem blind_exponentLength : Blind exponentLength := by
  intro a s v ha hs
  cases a with
  | nil =>
    rcases isStop_iff.1 hs with rfl | rfl | rfl <;> rfl
  | cons c a =>
    simp only [List.cons_append, exponentLength]
    rw [blind_signLength a s v ha.tail hs, drop_append_stop (signLength_le a),
      blind_digitsLength _ s v (ha.tail.drop _) hs]

theorem exponentLength_le (a : Text) : exponentLength a ≤ a.length := by
  cases a with
  | nil => simp [exponentLength]
  | cons c a =>
    have h := digitsLength_le (a.drop (signLength a))
    simp only [exponentLength, List.length_cons]
    rw [List.length_drop] at h
    split_ifs <;> omega

theorem length_le (a : Text) : length a ≤ a.length := by
  have h₁ := mantissaLength_le a
  have h₂ := exponentLength_le (a.drop (mantissaLength a))
  rw [List.length_drop] at h₂
  rw [length]
  omega

theorem blind_length : Blind length := by
  intro a s v ha hs
  rw [length, length, blind_mantissaLength a s v ha hs, drop_append_stop (mantissaLength_le a),
    blind_exponentLength _ s v (ha.drop _) hs]

theorem scan_length_le (a : Text) : (scan a).2 ≤ a.length := by
  have h₁ := length_le a
  have h₂ := takeWhile_length_le isDigitOrPoint (a.drop (length a))
  rw [List.length_drop] at h₂
  rw [scan]
  split_ifs <;> simp only <;> omega

theorem blind_scan : Blind scan := by
  intro a s v ha hs
  have hdot : s ≠ '.' := by
    rintro rfl
    simp [isStop, isLineEnd] at hs
  rw [scan, scan, blind_length a s v ha hs, drop_append_stop (length_le a)]
  simp only [head?_append_stop_eq hdot,
    blind_takeWhile (fun s hs => isDigitOrPoint_stop hs) _ s v (ha.drop _) hs]

end Number

theorem startsNumber_cons {c : Char} (hc : c ≠ '.') (cs : Text) :
    startsNumber (c :: cs) = c.isDigit := by
  rw [startsNumber.eq_def]
  split
  · rename_i h
    exact absurd (List.cons.inj h).1 hc
  · rename_i h
    rw [(List.cons.inj h).1]
  · rename_i h
    cases h

theorem blind_startsNumber : Blind startsNumber := by
  intro a s v ha hs
  have hd := isDigit_stop hs
  match a with
  | [] => rcases isStop_iff.1 hs with rfl | rfl | rfl <;> rfl
  | [c] =>
    by_cases hc : c = '.'
    · subst hc
      simp [startsNumber, hd]
    · rw [List.cons_append, startsNumber_cons hc, startsNumber_cons hc]
  | c :: d :: a =>
    by_cases hc : c = '.'
    · subst hc
      rfl
    · rw [List.cons_append, startsNumber_cons hc, startsNumber_cons hc]

theorem blind_identLength : Blind identLength := by
  intro a s v ha hs
  cases a with
  | nil => simp [identLength, isIdentStart_stop hs]
  | cons c a =>
    simp only [List.cons_append, identLength,
      blind_takeWhile (fun s hs => isIdentContinue_stop hs) a s v ha.tail hs]

theorem identLength_le (a : Text) : identLength a ≤ a.length := by
  cases a with
  | nil => simp [identLength]
  | cons c a =>
    have := takeWhile_length_le isIdentContinue a
    simp only [identLength, List.length_cons]
    split_ifs <;> omega

theorem blind_gapLength : Blind gapLength := fun a s v ha hs => by
  rw [gapLength, blind_takeWhile (fun s hs => isGap_stop hs) a s v ha hs, gapLength]

theorem gapLength_le (a : Text) : gapLength a ≤ a.length := takeWhile_length_le _ a

/-! ## Keywords -/

theorem length_eq_of_sameLetters {a b : Text} (h : Text.sameLetters a b = true) :
    a.length = b.length := by
  rw [Text.sameLetters, beq_iff_eq] at h
  simpa using congrArg List.length h

theorem le_of_sameLetters_take {a w : Text} (h : Text.sameLetters (a.take w.length) w = true) :
    w.length ≤ a.length := by
  have := length_eq_of_sameLetters h
  rw [List.length_take] at this
  omega

/-- No letter of the text is a stop in disguise: lower case leaves the stops as they are. -/
theorem toLower_stop {s : Char} (hs : isStop s = true) : s.toLower = s := by
  rcases isStop_iff.1 hs with rfl | rfl | rfl <;> rfl

/-- A word without stops is not found across one. -/
theorem sameLetters_take_append_stop {a w : Text} {s : Char} (v : Text)
    (hw : ∀ c ∈ w, isStop c.toLower = false) (hs : isStop s = true) :
    Text.sameLetters ((a ++ s :: v).take w.length) w = Text.sameLetters (a.take w.length) w := by
  by_cases hlen : w.length ≤ a.length
  · rw [take_append_stop hlen]
  · have h₁ : Text.sameLetters (a.take w.length) w = false := by
      rw [Bool.eq_false_iff]
      intro h
      exact hlen (le_of_sameLetters_take h)
    have h₂ : Text.sameLetters ((a ++ s :: v).take w.length) w = false := by
      rw [Bool.eq_false_iff]
      intro h
      rw [Text.sameLetters, beq_iff_eq] at h
      have hmem : s.toLower ∈ w.map Char.toLower := by
        rw [← h]
        refine List.mem_map_of_mem ?_
        rw [List.take_append, List.take_of_length_le (by omega)]
        obtain ⟨k, hk⟩ := Nat.exists_eq_add_of_lt (show 0 < w.length - a.length by omega)
        rw [hk, Nat.zero_add, List.take_succ_cons]
        simp
      obtain ⟨c, hc, he⟩ := List.mem_map.1 hmem
      have := hw c hc
      rw [he, toLower_stop hs, hs] at this
      cases this
    rw [h₁, h₂]

namespace Keyword

theorem wordsLength?_le {words : List String} {a : Text} {n : Nat}
    (h : wordsLength? words a = some n) : n ≤ a.length := by
  induction words generalizing a n with
  | nil =>
    simp only [wordsLength?, Option.some.injEq] at h
    omega
  | cons word words ih =>
    rw [wordsLength?] at h
    split at h
    · rename_i hw
      have hle := le_of_sameLetters_take hw
      cases words with
      | nil =>
        simp only [Option.some.injEq] at h
        omega
      | cons next more =>
        simp only at h
        split at h
        · cases h
        · obtain ⟨m, hm, rfl⟩ := Option.map_eq_some_iff.1 h
          have hm := ih hm
          rw [List.length_drop, List.length_drop] at hm
          have hgap := gapLength_le (a.drop word.toList.length)
          rw [List.length_drop] at hgap
          omega
    · cases h

theorem blind_wordsLength? {words : List String}
    (hw : ∀ w ∈ words, ∀ c ∈ w.toList, isStop c.toLower = false) : Blind (wordsLength? words) := by
  induction words with
  | nil => intro a s v _ _; rfl
  | cons word words ih =>
    intro a s v ha hs
    have ih := ih fun w hmem => hw w (List.mem_cons_of_mem _ hmem)
    rw [wordsLength?, wordsLength?,
      sameLetters_take_append_stop v (hw word List.mem_cons_self) hs]
    split
    · rename_i hsame
      have hle := le_of_sameLetters_take hsame
      cases words with
      | nil => rfl
      | cons next more =>
        simp only
        rw [drop_append_stop hle, blind_gapLength _ s v (ha.drop _) hs,
          drop_append_stop (gapLength_le _), ih _ s v ((ha.drop _).drop _) hs]
    · rfl

theorem blind_matchLength? {k : Keyword}
    (hk : ∀ w ∈ k.words, ∀ c ∈ w.toList, isStop c.toLower = false) : Blind k.matchLength? := by
  intro a s v ha hs
  have hcolon : s ≠ ':' := by
    rintro rfl
    simp [isStop, isLineEnd] at hs
  rw [matchLength?, matchLength?, blind_wordsLength? hk a s v ha hs]
  cases hm : wordsLength? k.words a with
  | none => rfl
  | some n =>
    have hn := wordsLength?_le hm
    have hhead : ∀ b : Text, ((b ++ s :: v).head? == some ':') = (b.head? == some ':') := by
      intro b
      rw [Bool.eq_iff_iff, beq_iff_eq, beq_iff_eq]
      exact head?_append_stop_eq hcolon
    simp only
    rw [drop_append_stop hn, head?_append_stop (isIdentContinue_stop hs),
      blind_gapLength _ s v (ha.drop _) hs, drop_append_stop (gapLength_le _), hhead]

theorem matchLength?_le {k : Keyword} {a : Text} {n : Nat} (h : k.matchLength? a = some n) :
    n ≤ a.length := by
  rw [matchLength?] at h
  split at h
  · cases h
  · rename_i m hm
    have hm := wordsLength?_le hm
    simp only at h
    split_ifs at h with _ hcolon
    · have hgap := gapLength_le (a.drop m)
      have hne : (a.drop m).drop (gapLength (a.drop m)) ≠ [] := by
        intro hnil
        simp [hnil] at hcolon
      have hlen := List.length_pos_iff.2 hne
      rw [List.length_drop, List.length_drop] at hlen
      rw [Option.some.injEq] at h
      omega
    · rw [Option.some.injEq] at h
      omega

end Keyword

theorem Grammar.matchKeyword?_le {a : Text} {kind : Kind} {n : Nat}
    (h : matchKeyword? a = some (kind, n)) : n ≤ a.length := by
  obtain ⟨k, -, hm⟩ := List.exists_of_findSome?_eq_some h
  obtain ⟨m, hm, he⟩ := Option.map_eq_some_iff.1 hm
  rw [Prod.mk.injEq] at he
  exact he.2 ▸ Keyword.matchLength?_le hm

theorem Grammar.matchKeyword?_kind {a : Text} {r : Kind × Nat} (h : matchKeyword? a = some r) :
    r.1.isInner = true := by
  obtain ⟨k, hk, hm⟩ := List.exists_of_findSome?_eq_some h
  obtain ⟨m, -, rfl⟩ := Option.map_eq_some_iff.1 hm
  have hall : ∀ k ∈ keywords, k.kind.isInner = true := by decide
  exact hall k hk

theorem Grammar.keywords_unstopped :
    ∀ k ∈ keywords, ∀ w ∈ k.words, ∀ c ∈ w.toList, isStop c.toLower = false := by
  have h : (keywords.all fun k => k.words.all fun w => w.toList.all fun c => !isStop c.toLower) =
      true := by decide
  simpa [List.all_eq_true] using h

theorem Grammar.blind_matchKeyword? : Blind matchKeyword? := by
  intro a s v ha hs
  rw [matchKeyword?, matchKeyword?]
  have h : ∀ k ∈ keywords, (k.matchLength? (a ++ s :: v)).map (k.kind, ·) =
      (k.matchLength? a).map (k.kind, ·) := by
    intro k hk
    rw [Keyword.blind_matchLength? (keywords_unstopped k hk) a s v ha hs]
  generalize keywords = ks at h
  induction ks with
  | nil => rfl
  | cons k ks ih =>
    rw [List.findSome?_cons, List.findSome?_cons, h k List.mem_cons_self,
      ih fun k' hk' => h k' (List.mem_cons_of_mem _ hk')]

/-! ## Lexical rules -/

namespace Lexeme

theorem blind_signed (operator : Kind) : Blind (signed operator) := by
  intro a s v ha hs
  simp only [signed, blind_startsNumber a s v ha hs, Number.blind_scan a s v ha hs,
    blind_identLength a s v ha hs, take_append_stop (identLength_le a)]

theorem blind_word : Blind word := by
  intro a s v ha hs
  simp only [word, blind_identLength a s v ha hs, take_append_stop (identLength_le a)]

/-- The operators and marks of one or two characters. -/
def mark? (c : Char) (next : Option Char) : Option (Kind × Nat) :=
  if c = '<' then some (if next = some '=' then (.ltEq, 2) else (.lt, 1))
  else if c = '>' then some (if next = some '=' then (.gtEq, 2) else (.gt, 1))
  else if c = '=' then
    some (if next = some '<' then (.ltEq, 2) else if next = some '>' then (.gtEq, 2) else (.eq, 1))
  else if c = ':' then some (if next = some ':' then (.colon2, 2) else (.colon, 1))
  else if c = '(' then some (.lParen, 1)
  else if c = ')' then some (.rParen, 1)
  else none

/-- The lexical rules, sorted by the first character, for a text that does not begin with a
stop. -/
theorem rule?_cons {c : Char} (hc : isStop c = false) (cs : Text) :
    rule? (c :: cs) =
      if c = '+' then some (signed .plus cs)
      else if c = '-' then some (signed .minus cs)
      else match mark? c cs.head? with
        | some mark => some mark
        | none =>
          if isBlank c then some (.whitespace, 1 + (cs.takeWhile isBlank).length)
          else if startsNumber (c :: cs) then some (Number.scan (c :: cs))
          else if isIdentStart c then some (word (c :: cs))
          else none := by
  have hr : c ≠ '\r' := ne_of_not_isStop hc rfl
  have hn : c ≠ '\n' := ne_of_not_isStop hc rfl
  have hb : c ≠ '\\' := ne_of_not_isStop hc rfl
  rw [rule?.eq_def]
  split <;> rename_i h
  case h_19 =>
    obtain ⟨rfl, rfl⟩ := List.cons.inj h
    have hmark : mark? c cs.head? = none := by
      cases cs <;> grind [mark?]
    rw [hmark]
    grind
  case h_20 => cases h
  all_goals
    obtain ⟨rfl, rfl⟩ := List.cons.inj h
    first
    | exact absurd rfl hr
    | exact absurd rfl hn
    | exact absurd rfl hb
    | rfl
    | (cases cs <;> simp_all [mark?])

theorem mark?_stop {s : Char} (hs : isStop s = true) (c : Char) :
    mark? c (some s) = mark? c none := by
  rcases isStop_iff.1 hs with rfl | rfl | rfl <;> simp [mark?]

theorem rule?_append_stop {a : Text} {s : Char} (v : Text) (hne : a ≠ []) (ha : Unstopped a)
    (hs : isStop s = true) : rule? (a ++ s :: v) = rule? a := by
  cases a with
  | nil => exact absurd rfl hne
  | cons c a =>
    have hc := ha c List.mem_cons_self
    have hmark : mark? c (a ++ s :: v).head? = mark? c a.head? := by
      cases a with
      | nil => exact mark?_stop hs c
      | cons d a => rfl
    rw [List.cons_append, rule?_cons hc, rule?_cons hc, hmark, blind_signed _ a s v ha.tail hs,
      blind_signed _ a s v ha.tail hs, blind_takeWhile (fun s hs => isBlank_stop hs) a s v ha.tail hs,
      ← List.cons_append, blind_startsNumber _ s v ha hs, Number.blind_scan _ s v ha hs,
      blind_word _ s v ha hs]

theorem startsToken_append_stop {a : Text} {s : Char} (v : Text) (hne : a ≠ []) (ha : Unstopped a)
    (hs : isStop s = true) : startsToken (a ++ s :: v) = startsToken a := by
  cases a with
  | nil => exact absurd rfl hne
  | cons c a =>
    rw [List.cons_append, startsToken, startsToken, ← List.cons_append,
      blind_startsNumber _ s v ha hs]

theorem blind_lengthToToken : Blind lengthToToken := by
  intro a s v ha hs
  induction a with
  | nil => simp [lengthToToken, startsToken_stop hs]
  | cons c a ih =>
    have hst := startsToken_append_stop v (List.cons_ne_nil c a) ha hs
    rw [List.cons_append] at hst
    rw [List.cons_append, lengthToToken, lengthToToken, ih ha.tail, hst]

/-- **Behind a stop nothing is looked at.** -/
theorem scan_append_stop (mode : Mode) {a : Text} {s : Char} (v : Text) (hne : a ≠ [])
    (ha : Unstopped a) (hs : isStop s = true) : scan mode (a ++ s :: v) = scan mode a := by
  have hkey : keyword? mode (a ++ s :: v) = keyword? mode a := by
    cases mode with
    | statementStart => exact Grammar.blind_matchKeyword? a s v ha hs
    | inline => rfl
  have herr : errorLength (a ++ s :: v) = errorLength a := by
    cases a with
    | nil => exact absurd rfl hne
    | cons c a => rw [List.cons_append, errorLength, errorLength, blind_lengthToToken a s v ha.tail hs]
  rw [scan, scan, hkey, startsToken_append_stop v hne ha hs, rule?_append_stop v hne ha hs, herr]

theorem length_signed_le (operator : Kind) (a : Text) : (signed operator a).2 ≤ 1 + a.length := by
  have h₁ := identLength_le a
  have h₂ : (Number.scan a).2 ≤ a.length := Number.scan_length_le a
  rw [signed]
  split_ifs
  · simp only
    omega
  · simp only
    split_ifs <;> simp only <;> omega

theorem lengthToToken_le (a : Text) : lengthToToken a ≤ a.length := by
  induction a with
  | nil => simp [lengthToToken]
  | cons c a ih =>
    rw [lengthToToken]
    split_ifs
    · simp
    · rw [List.length_cons]
      omega

theorem errorLength_le (a : Text) : errorLength a ≤ a.length := by
  cases a with
  | nil => simp [errorLength]
  | cons c a =>
    have := lengthToToken_le a
    rw [errorLength, List.length_cons]
    omega

theorem mark?_length_le {c : Char} {cs : Text} {kind : Kind} {n : Nat}
    (h : mark? c cs.head? = some (kind, n)) : n ≤ 1 + cs.length := by
  cases cs with
  | nil =>
    simp only [mark?, List.head?_nil, reduceCtorEq, if_false] at h
    split_ifs at h <;> simp_all
  | cons d cs =>
    rw [List.length_cons]
    have : n ≤ 2 := by
      rw [mark?] at h
      split_ifs at h <;> simp_all <;> omega
    omega

/-- What a lexical rule can give where the text does not begin with a stop. -/
theorem rule?_eq_some {c : Char} (hc : isStop c = false) {cs : Text} {r : Kind × Nat}
    (h : rule? (c :: cs) = some r) :
    r = signed .plus cs ∨ r = signed .minus cs ∨ mark? c cs.head? = some r ∨
      r = (.whitespace, 1 + (cs.takeWhile isBlank).length) ∨ r = Number.scan (c :: cs) ∨
      r = word (c :: cs) := by
  rw [rule?_cons hc] at h
  by_cases h₁ : c = '+'
  · rw [if_pos h₁, Option.some.injEq] at h
    exact .inl h.symm
  rw [if_neg h₁] at h
  by_cases h₂ : c = '-'
  · rw [if_pos h₂, Option.some.injEq] at h
    exact .inr (.inl h.symm)
  rw [if_neg h₂] at h
  cases hm : mark? c cs.head? with
  | some mark =>
    rw [hm] at h
    exact .inr (.inr (.inl h))
  | none =>
    rw [hm] at h
    simp only at h
    split_ifs at h <;> simp_all

theorem rule?_length_le {c : Char} (hc : isStop c = false) {cs : Text} {kind : Kind} {n : Nat}
    (h : rule? (c :: cs) = some (kind, n)) : n ≤ 1 + cs.length := by
  rcases rule?_eq_some hc h with h | h | h | h | h | h
  · exact Nat.le_trans (Nat.le_of_eq (congrArg Prod.snd h)) (length_signed_le _ cs)
  · exact Nat.le_trans (Nat.le_of_eq (congrArg Prod.snd h)) (length_signed_le _ cs)
  · exact mark?_length_le h
  · have := takeWhile_length_le isBlank cs
    rw [Prod.mk.injEq] at h
    omega
  · have := Number.scan_length_le (c :: cs)
    rw [← h, List.length_cons] at this
    omega
  · have := identLength_le (c :: cs)
    rw [word, Prod.mk.injEq] at h
    rw [List.length_cons] at this
    omega

theorem scan_length_le_of_not_stop (mode : Mode) {c : Char} (hc : isStop c = false) (cs : Text) :
    (scan mode (c :: cs)).2 ≤ 1 + cs.length := by
  have herr := errorLength_le (c :: cs)
  rw [List.length_cons] at herr
  rw [scan]
  split
  · rename_i keyword hk
    obtain ⟨kind, n⟩ := keyword
    cases mode with
    | inline => cases hk
    | statementStart =>
      have := Grammar.matchKeyword?_le hk
      rw [List.length_cons] at this
      simp only
      omega
  · split_ifs
    · cases hr : rule? (c :: cs) with
      | none =>
        simp only [Option.getD_none]
        omega
      | some r =>
        obtain ⟨kind, n⟩ := r
        exact rule?_length_le hc hr
    · simp only
      omega

/-! ## Kinds of tokens -/

theorem mark?_kind {c : Char} {next : Option Char} {r : Kind × Nat} (h : mark? c next = some r) :
    r.1.isInner = true := by
  rw [mark?] at h
  split_ifs at h <;> cases h <;> rfl

theorem numberScan_kind (a : Text) : (Number.scan a).1.isInner = true := by
  rw [Number.scan]
  split_ifs <;> rfl

theorem signed_kind {operator : Kind} (ho : operator.isInner = true) (a : Text) :
    (signed operator a).1.isInner = true := by
  rw [signed]
  split_ifs
  · exact numberScan_kind a
  · simp only
    split_ifs
    · rfl
    · exact ho

theorem word_kind (a : Text) : (word a).1.isInner = true := by
  rw [word]
  simp only
  split_ifs <;> rfl

/-- A token that does not begin with a stop is neither a line end nor a comment. -/
theorem scan_kind_of_not_stop (mode : Mode) {c : Char} (hc : isStop c = false) (cs : Text) :
    (scan mode (c :: cs)).1.isInner = true := by
  rw [scan]
  split
  · rename_i keyword hk
    cases mode with
    | inline => cases hk
    | statementStart => exact Grammar.matchKeyword?_kind hk
  · split_ifs
    · cases hr : rule? (c :: cs) with
      | none => rfl
      | some r =>
        rw [Option.getD_some]
        rcases rule?_eq_some hc hr with rfl | rfl | h | rfl | rfl | rfl
        · exact signed_kind rfl cs
        · exact signed_kind rfl cs
        · exact mark?_kind h
        · rfl
        · exact numberScan_kind _
        · exact word_kind _
    · rfl

/-! ## Tokens that begin with a stop -/

theorem keyword?_stop (mode : Mode) {s : Char} (hs : isStop s = true) (v : Text) :
    keyword? mode (s :: v) = none := by
  cases mode with
  | inline => rfl
  | statementStart =>
    have hnil : Grammar.matchKeyword? [] = none := by decide
    rw [← hnil]
    exact Grammar.blind_matchKeyword? [] s v (fun _ h => by cases h) hs

theorem scan_stop (mode : Mode) {s : Char} (hs : isStop s = true) (v : Text) :
    scan mode (s :: v) = (rule? (s :: v)).getD (.errorToken, errorLength (s :: v)) := by
  rw [scan, keyword?_stop mode hs]
  simp only [startsToken_stop hs, if_true]

theorem scan_lineFeed (mode : Mode) (v : Text) : scan mode ('\n' :: v) = (.newline, 1) := by
  rw [scan_stop mode rfl, rule?.eq_def]
  rfl

theorem scan_return_lineFeed (mode : Mode) (v : Text) :
    scan mode ('\r' :: '\n' :: v) = (.newline, 2) := by
  rw [scan_stop mode rfl, rule?.eq_def]
  rfl

theorem scan_return (mode : Mode) {v : Text} (hv : v.head? ≠ some '\n') :
    scan mode ('\r' :: v) = (.newline, 1) := by
  rw [scan_stop mode rfl, rule?.eq_def]
  cases v with
  | nil => rfl
  | cons d v =>
    have hd : d ≠ '\n' := fun h => hv (by rw [h]; rfl)
    simp [hd]

theorem scan_blockComment (mode : Mode) (v : Text) :
    scan mode ('\\' :: '*' :: v) = (.blockComment, 2 + commentTailLength v) := by
  rw [scan_stop mode rfl, rule?.eq_def]
  rfl

theorem scan_lineComment (mode : Mode) {v : Text} (hv : v.head? ≠ some '*') :
    scan mode ('\\' :: v) =
      (.lineComment, 1 + (v.takeWhile fun c => !isLineEnd c).length) := by
  rw [scan_stop mode rfl, rule?.eq_def]
  cases v with
  | nil => rfl
  | cons d v =>
    have hd : d ≠ '*' := fun h => hv (by rw [h]; rfl)
    simp [hd]

theorem commentTailLength_le (v : Text) : commentTailLength v ≤ v.length := by
  fun_induction commentTailLength v with
  | case1 => simp
  | case2 v => simp
  | case3 c v _ ih =>
    rw [List.length_cons]
    omega

/-- The tokens that begin with a stop: a line end or a comment. -/
theorem scan_stop_cases (mode : Mode) {s : Char} (hs : isStop s = true) (v : Text) :
    (∃ n, scan mode (s :: v) = (.newline, n) ∧ n ≤ 1 + v.length) ∨
      (∃ n, scan mode (s :: v) = (.lineComment, n) ∧ n ≤ 1 + v.length) ∨
      ∃ n, scan mode (s :: v) = (.blockComment, n) ∧ n ≤ 1 + v.length := by
  rcases isStop_iff.1 hs with rfl | rfl | rfl
  · by_cases hv : v.head? = some '\n'
    · cases v with
      | nil => cases hv
      | cons d v =>
        cases hv
        exact .inl ⟨2, scan_return_lineFeed mode v, by rw [List.length_cons]; omega⟩
    · exact .inl ⟨1, scan_return mode hv, by simp⟩
  · exact .inl ⟨1, scan_lineFeed mode v, by simp⟩
  · by_cases hv : v.head? = some '*'
    · cases v with
      | nil => cases hv
      | cons d v =>
        cases hv
        have hle := commentTailLength_le v
        refine .inr (.inr ⟨_, scan_blockComment mode v, ?_⟩)
        rw [List.length_cons]
        omega
    · have hle := takeWhile_length_le (fun c => !isLineEnd c) v
      exact .inr (.inl ⟨_, scan_lineComment mode hv, by omega⟩)

theorem scan_kind (mode : Mode) (c : Char) (cs : Text) : (scan mode (c :: cs)).1.isLexed = true := by
  by_cases hc : isStop c = true
  · rcases scan_stop_cases mode hc cs with ⟨n, h, -⟩ | ⟨n, h, -⟩ | ⟨n, h, -⟩ <;> rw [h] <;> rfl
  · exact Kind.isLexed_of_isInner (scan_kind_of_not_stop mode (by simpa using hc) cs)

theorem scan_length_le (mode : Mode) (c : Char) (cs : Text) :
    (scan mode (c :: cs)).2 ≤ 1 + cs.length := by
  by_cases hc : isStop c = true
  · rcases scan_stop_cases mode hc cs with ⟨n, h, hn⟩ | ⟨n, h, hn⟩ | ⟨n, h, hn⟩ <;> rw [h] <;> exact hn
  · exact scan_length_le_of_not_stop mode (by simpa using hc) cs

end Lexeme

end LpFormat
