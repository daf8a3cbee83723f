import LpFormat.Proofs.Parsing.Schema
import LpFormat.Proofs.Token.Reading

/-!
# The lexical rules as languages

What a rule takes is a regular language of its own, written out character by character. The lexer
picks the rule with the longest word at its place, and lets it look at what follows.

* `Lexeme.Pattern`, `Lexeme.Pattern.words`: the rules and the words they take;
* `Lexeme.Pattern.Takes`, `Lexeme.Pattern.Wins`: a word at the start of a text, and the longest one;
* `Lexeme.Pattern.token`: what becomes of the word that won;
* **`Lexeme.Pattern.follows_rule?`**: the lexer follows the rule with the longest word;
* **`Lexeme.startsToken_iff`**: a token starts where some rule takes a word;
* `Lexeme.IsLexical`: a place where a rule or a keyword applies;
* `Lexeme.scan_eq_errorToken_iff`: what is not lexical is an error token, and nothing else is.
-/

namespace LpFormat

open Computability

theorem mem_kstar_single {α : Type} {p : α → Prop} {w : List α} :
    w ∈ (single p)∗ ↔ ∀ a ∈ w, p a := by
  constructor
  · intro hw a ha
    obtain ⟨ws, rfl, hws⟩ := Language.mem_kstar.1 hw
    obtain ⟨u, hu, hau⟩ := List.mem_flatten.1 ha
    obtain ⟨b, hb, rfl⟩ := hws u hu
    rwa [List.mem_singleton.1 hau]
  · intro h
    refine Language.mem_kstar.2 ⟨w.map ([·]), (List.flatMap_singleton' w).symm, fun u hu => ?_⟩
    obtain ⟨a, ha, rfl⟩ := List.mem_map.1 hu
    exact mem_single.2 (h a ha)

/-- One letter and a run of letters behind it. -/
theorem mem_single_mul_kstar {α : Type} {p q : α → Prop} {w : List α} :
    w ∈ single p * (single q)∗ ↔ ∃ a v, w = a :: v ∧ p a ∧ ∀ b ∈ v, q b := by
  constructor
  · rintro ⟨u, ⟨a, ha, rfl⟩, v, hv, rfl⟩
    exact ⟨a, v, rfl, ha, mem_kstar_single.1 hv⟩
  · rintro ⟨a, v, rfl, ha, hv⟩
    exact Language.append_mem_mul (mem_single.2 ha) (mem_kstar_single.2 hv)

namespace Lexeme

/-- The lexical rules, keywords apart. -/
inductive Pattern where
  | whitespace
  | newline
  | lineComment
  | blockComment
  | number
  | plus
  | minus
  | word
  | ltEq
  | gtEq
  | lt
  | gt
  | eq
  | colon2
  | colon
  | lParen
  | rParen
deriving DecidableEq, Repr

namespace Pattern

/-- The words of a list. -/
def oneOf (ws : List Text) : Language Char := {w | w ∈ ws}

/-- A character between two others. -/
def range (first last : Char) : Language Char := single fun c => first ≤ c ∧ c ≤ last

/-- A character out of a list. -/
def among (cs : List Char) : Language Char := single (· ∈ cs)

/-- A character that is not in a list. -/
def besides (cs : List Char) : Language Char := single (· ∉ cs)

/-- Letters, and the signs that can stand for one. -/
def letter : Language Char :=
  range 'A' 'Z' + range 'a' 'z' +
    among ['_', '!', '#', '$', '%', '&', ';', '?', '@', '\x27', '\x7b', '\x7d']

/-- The words of a rule. -/
def words : Pattern → Language Char
  | whitespace => among [' ', '\t', '\x0c'] * (among [' ', '\t', '\x0c'])∗
  | newline => oneOf [['\r', '\n'], ['\n'], ['\r']]
  | lineComment => among ['\\'] * optional (besides ['*', '\r', '\n'] * (besides ['\r', '\n'])∗)
  | blockComment => oneOf [['\\', '*']]
  | number => range '0' '9' + among ['.'] * range '0' '9'
  | plus => oneOf [['+']]
  | minus => oneOf [['-']]
  | word => letter * (letter + range '0' '9' + among ['.'])∗
  | ltEq => oneOf [['<', '='], ['=', '<']]
  | gtEq => oneOf [['>', '='], ['=', '>']]
  | lt => oneOf [['<']]
  | gt => oneOf [['>']]
  | eq => oneOf [['=']]
  | colon2 => oneOf [[':', ':']]
  | colon => oneOf [[':']]
  | lParen => oneOf [['(']]
  | rParen => oneOf [[')']]

/-- The rule takes a word at the start of a text. -/
def Takes (p : Pattern) (w cs : Text) : Prop := w ∈ p.words ∧ w <+: cs

/-- No rule takes a longer word at the start of a text. -/
structure Wins (p : Pattern) (w cs : Text) : Prop where
  takes : p.Takes w cs
  longest : ∀ (q : Pattern) (v : Text), q.Takes v cs → v.length ≤ w.length

/-- What becomes of the word that won, when the text goes on behind it: comments, numbers and signs
look further. -/
def token (p : Pattern) (w rest : Text) : Kind × Nat :=
  match p with
  | whitespace => (.whitespace, w.length)
  | newline => (.newline, w.length)
  | lineComment => (.lineComment, w.length)
  | blockComment => (.blockComment, w.length + commentTailLength rest)
  | number => Number.scan (w ++ rest)
  | plus => signed .plus rest
  | minus => signed .minus rest
  | word => (if isInfinity w then .infinity else .ident, w.length)
  | ltEq => (.ltEq, w.length)
  | gtEq => (.gtEq, w.length)
  | lt => (.lt, w.length)
  | gt => (.gt, w.length)
  | eq => (.eq, w.length)
  | colon2 => (.colon2, w.length)
  | colon => (.colon, w.length)
  | lParen => (.lParen, w.length)
  | rParen => (.rParen, w.length)

/-! ## Character classes -/

theorem mem_oneOf {w : Text} {ws : List Text} : w ∈ oneOf ws ↔ w ∈ ws := Iff.rfl

theorem isDigit_iff {c : Char} : c.isDigit = true ↔ '0' ≤ c ∧ c ≤ '9' := by
  simp [Char.isDigit, Char.le_def]

theorem range_digit : range '0' '9' = single fun c => c.isDigit = true := by
  simp only [range, isDigit_iff]

theorem isIdentStart_iff {c : Char} :
    isIdentStart c = true ↔ ('A' ≤ c ∧ c ≤ 'Z') ∨ ('a' ≤ c ∧ c ≤ 'z') ∨ c ∈ identSigns := by
  simp [isIdentStart, Char.isAlpha, Char.isUpper, Char.isLower, Char.le_def, or_assoc]

theorem single_add {α : Type} {p q : α → Prop} :
    single p + single q = single fun a => p a ∨ q a := by
  ext w
  rw [Language.mem_add]
  constructor
  · rintro (⟨a, ha, rfl⟩ | ⟨a, ha, rfl⟩)
    · exact ⟨a, .inl ha, rfl⟩
    · exact ⟨a, .inr ha, rfl⟩
  · rintro ⟨a, ha | ha, rfl⟩
    · exact .inl ⟨a, ha, rfl⟩
    · exact .inr ⟨a, ha, rfl⟩

theorem letter_eq : letter = single fun c => isIdentStart c = true := by
  simp only [letter, range, among, single_add, isIdentStart_iff, or_assoc, identSigns]

theorem mem_whitespace {w : Text} : w ∈ whitespace.words ↔
    ∃ c v, w = c :: v ∧ isBlank c = true ∧ ∀ d ∈ v, isBlank d = true := by
  have hblank : among [' ', '\t', '\x0c'] = single fun c => isBlank c = true := by
    simp [among, isBlank, or_assoc]
  rw [words, hblank, mem_single_mul_kstar]

theorem mem_word {w : Text} : w ∈ word.words ↔
    ∃ c v, w = c :: v ∧ isIdentStart c = true ∧ ∀ d ∈ v, isIdentContinue d = true := by
  have hmore : letter + range '0' '9' + among ['.'] =
      single fun c => isIdentContinue c = true := by
    simp only [letter_eq, range_digit, among, single_add, isIdentContinue, Bool.or_eq_true,
      beq_iff_eq, List.mem_singleton]
  rw [words, hmore, letter_eq, mem_single_mul_kstar]

theorem mem_number {w : Text} :
    w ∈ number.words ↔ ∃ d, d.isDigit = true ∧ (w = [d] ∨ w = ['.', d]) := by
  rw [words, range_digit, Language.mem_add]
  constructor
  · rintro (⟨d, hd, rfl⟩ | ⟨u, ⟨c, hc, rfl⟩, v, ⟨d, hd, rfl⟩, rfl⟩)
    · exact ⟨d, hd, .inl rfl⟩
    · rw [List.mem_singleton.1 hc]
      exact ⟨d, hd, .inr rfl⟩
  · rintro ⟨d, hd, rfl | rfl⟩
    · exact .inl (mem_single.2 hd)
    · refine .inr (Language.append_mem_mul (mem_single.2 ?_) (mem_single.2 hd))
      exact List.mem_singleton.2 rfl

theorem mem_lineComment {w : Text} : w ∈ lineComment.words ↔
    ∃ v, w = '\\' :: v ∧ v.head? ≠ some '*' ∧ ∀ d ∈ v, isLineEnd d = false := by
  have hend : ∀ d, d ∉ ['\r', '\n'] ↔ isLineEnd d = false := by simp [isLineEnd]
  rw [words, besides, besides, optional]
  constructor
  · rintro ⟨u, ⟨b, hb, rfl⟩, v, rfl | hv, rfl⟩
    · rw [List.mem_singleton.1 hb]
      exact ⟨[], rfl, by simp, List.forall_mem_nil _⟩
    · rw [List.mem_singleton.1 hb]
      obtain ⟨c, v, rfl, hc, hv⟩ := mem_single_mul_kstar.1 hv
      simp only [List.mem_cons, not_or] at hc
      refine ⟨c :: v, rfl, by simp [hc.1], List.forall_mem_cons.2 ⟨?_, fun d hd => ?_⟩⟩
      · simp [isLineEnd, hc.2]
      · exact (hend d).1 (hv d hd)
  · rintro ⟨v, rfl, hstar, hv⟩
    refine Language.append_mem_mul (mem_single.2 (List.mem_singleton.2 rfl)) ?_
    cases v with
    | nil => exact .inl rfl
    | cons c v =>
      refine .inr (mem_single_mul_kstar.2 ⟨c, v, rfl, ?_, fun d hd => ?_⟩)
      · have hc := (hend c).2 (hv c List.mem_cons_self)
        simp only [List.mem_cons, not_or] at hc ⊢
        exact ⟨fun h => hstar (by rw [h]; rfl), hc⟩
      · exact (hend d).2 (hv d (List.mem_cons_of_mem _ hd))

/-! ## Rules by their first character -/

/-- The rules whose words may begin with a character. -/
def ofFirst (c : Char) : List Pattern :=
  if isBlank c then [whitespace]
  else if isLineEnd c then [newline]
  else if c = '\\' then [lineComment, blockComment]
  else if c = '+' then [plus]
  else if c = '-' then [minus]
  else if c = '<' then [ltEq, lt]
  else if c = '>' then [gtEq, gt]
  else if c = '=' then [ltEq, gtEq, eq]
  else if c = ':' then [colon2, colon]
  else if c = '(' then [lParen]
  else if c = ')' then [rParen]
  else if isIdentStart c then [word]
  else if c.isDigit || c == '.' then [number]
  else []

theorem ofFirst_blank {c : Char} (h : isBlank c = true) : ofFirst c = [whitespace] := by
  rw [ofFirst, if_pos h]

/-- Letters, digits and points are neither blanks nor marks. -/
theorem ofFirst_identContinue {c : Char} (h : isIdentContinue c = true) :
    ofFirst c = if isIdentStart c then [word] else [number] := by
  have hne : ∀ d, isIdentContinue d = false → c ≠ d := by
    rintro d hd rfl
    rw [h] at hd
    cases hd
  have hblank : isBlank c = false := by
    simp [isBlank, hne ' ' (by decide), hne '\t' (by decide), hne '\x0c' (by decide)]
  have hline : isLineEnd c = false := by
    simp [isLineEnd, hne '\r' (by decide), hne '\n' (by decide)]
  simp only [ofFirst, hblank, hline, hne '\\' (by decide), hne '+' (by decide),
    hne '-' (by decide), hne '<' (by decide), hne '>' (by decide), hne '=' (by decide),
    hne ':' (by decide), hne '(' (by decide), hne ')' (by decide), if_false, Bool.false_eq_true]
  rw [isIdentContinue, Bool.or_assoc, Bool.or_eq_true] at h
  split_ifs with h₁ h₂
  · rfl
  · rfl
  · exact absurd (h.resolve_left h₁) h₂

theorem ofFirst_letter {c : Char} (h : isIdentStart c = true) : ofFirst c = [word] := by
  rw [ofFirst_identContinue (by simp [isIdentContinue, h]), if_pos h]

theorem isIdentStart_digit {c : Char} (h : c.isDigit = true) : isIdentStart c = false := by
  rw [Bool.eq_false_iff]
  intro hs
  rcases isIdentStart_iff.1 hs with h' | h' | h'
  · exact absurd (Char.le_trans h'.1 (isDigit_iff.1 h).2) (by decide)
  · exact absurd (Char.le_trans h'.1 (isDigit_iff.1 h).2) (by decide)
  · have hsigns : (identSigns.all fun d => !d.isDigit) = true := by decide
    simpa [h] using List.all_eq_true.1 hsigns c h'

theorem ofFirst_digit {c : Char} (h : c.isDigit = true) : ofFirst c = [number] := by
  rw [ofFirst_identContinue (by simp [isIdentContinue, h]), if_neg (by simp [isIdentStart_digit h])]

/-- The words of a rule are not empty, and their first character tells them apart. -/
theorem mem_ofFirst {p : Pattern} {w : Text} (h : w ∈ p.words) :
    ∃ c v, w = c :: v ∧ p ∈ ofFirst c := by
  cases p with
  | whitespace =>
    obtain ⟨c, v, rfl, hc, -⟩ := mem_whitespace.1 h
    exact ⟨c, v, rfl, by simp [ofFirst_blank hc]⟩
  | lineComment =>
    obtain ⟨v, rfl, -⟩ := mem_lineComment.1 h
    exact ⟨_, v, rfl, by decide⟩
  | word =>
    obtain ⟨c, v, rfl, hc, -⟩ := mem_word.1 h
    exact ⟨c, v, rfl, by simp [ofFirst_letter hc]⟩
  | number =>
    obtain ⟨d, hd, rfl | rfl⟩ := mem_number.1 h
    · exact ⟨d, [], rfl, by simp [ofFirst_digit hd]⟩
    · exact ⟨'.', [d], rfl, by decide⟩
  | newline =>
    simp only [words, mem_oneOf, List.mem_cons, List.not_mem_nil, or_false] at h
    obtain rfl | rfl | rfl := h <;> exact ⟨_, _, rfl, by decide⟩
  | ltEq | gtEq =>
    obtain rfl | rfl := List.mem_pair.1 h <;> exact ⟨_, _, rfl, by decide⟩
  | _ =>
    cases List.mem_singleton.1 h
    exact ⟨_, _, rfl, by decide⟩

theorem length_le_of_run {p : Char → Bool} {v cs : Text} (h : v <+: cs) (hv : ∀ d ∈ v, p d = true) :
    v.length ≤ (cs.takeWhile p).length := by
  obtain ⟨rest, rfl⟩ := h
  rw [List.takeWhile_append_of_pos hv, List.length_append]
  omega

/-- Only the rules for the first character of a text compete for it. -/
theorem Wins.of_first {p : Pattern} {w cs : Text} {c : Char} (h : p.Takes w (c :: cs))
    (hl : ∀ q ∈ ofFirst c, ∀ v, q.Takes v (c :: cs) → v.length ≤ w.length) :
    p.Wins w (c :: cs) := by
  refine ⟨h, fun q v hv => hl q ?_ v hv⟩
  obtain ⟨d, v, rfl, hq⟩ := mem_ofFirst hv.1
  rwa [(List.cons_prefix_cons.1 hv.2).1] at hq

theorem not_singleton_prefix {c : Char} {cs : Text} (h : ∀ tail, cs = c :: tail → False) :
    ¬ [c] <+: cs :=
  fun ⟨tail, htail⟩ => h tail htail.symm

/-- The token at the start of a text comes from the rule with the longest word. -/
def Follows (cs : Text) (t : Kind × Nat) : Prop :=
  ∃ (p : Pattern) (w rest : Text), cs = w ++ rest ∧ p.Wins w cs ∧ p.token w rest = t

theorem Follows.of_first (p : Pattern) (c : Char) (w : Text) {rest : Text} (hw : c :: w ∈ p.words)
    (hl : ∀ q ∈ ofFirst c, ∀ v ∈ q.words, v <+: c :: (w ++ rest) → v.length ≤ w.length + 1) :
    Follows (c :: (w ++ rest)) (p.token (c :: w) rest) :=
  ⟨p, c :: w, rest, rfl,
    .of_first ⟨hw, List.prefix_append _ _⟩ fun q hq v hv => hl q hq v hv.1 hv.2, rfl⟩

/-- A character and the run behind it are the longest word if no other rule applies. -/
theorem Follows.of_run (p : Pattern) {f : Char → Bool} {c : Char} {cs : Text}
    (hmem : c :: cs.takeWhile f ∈ p.words) (hrun : ∀ v, c :: v ∈ p.words → ∀ d ∈ v, f d = true)
    (hfirst : ∀ q ∈ ofFirst c, q = p ∨ ∀ v ∈ q.words, ¬ v <+: c :: cs) :
    Follows (c :: cs) (p.token (c :: cs.takeWhile f) (cs.dropWhile f)) := by
  have hcs : cs.takeWhile f ++ cs.dropWhile f = cs := List.takeWhile_append_dropWhile
  have h : Follows (c :: (cs.takeWhile f ++ cs.dropWhile f))
      (p.token (c :: cs.takeWhile f) (cs.dropWhile f)) := by
    refine .of_first p c _ hmem fun q hq v hv hpre => ?_
    rw [hcs] at hpre
    obtain rfl | hno := hfirst q hq
    · cases v with
      | nil => simp
      | cons d v =>
        obtain ⟨rfl, htail⟩ := List.cons_prefix_cons.1 hpre
        exact Nat.succ_le_succ (length_le_of_run htail (hrun v hv))
    · exact absurd hpre (hno v hv)
  rwa [hcs] at h

theorem Follows.of_number {c : Char} {cs : Text} (h : startsNumber (c :: cs) = true) :
    Follows (c :: cs) (Number.scan (c :: cs)) := by
  by_cases hc : c = '.'
  · subst hc
    cases cs with
    | nil => cases h
    | cons d cs =>
      refine .of_first number '.' [d] (mem_number.2 ⟨d, h, .inr rfl⟩) fun q hq v hv hpre => ?_
      cases List.mem_singleton.1 (show q ∈ [number] from hq)
      obtain ⟨e, -, rfl | rfl⟩ := mem_number.1 hv <;> simp
  · rw [startsNumber_cons hc] at h
    refine .of_first number c [] (mem_number.2 ⟨c, h, .inl rfl⟩) fun q hq v hv hpre => ?_
    rw [ofFirst_digit h, List.mem_singleton] at hq
    subst hq
    obtain ⟨e, -, rfl | rfl⟩ := mem_number.1 hv
    · simp
    · exact absurd (List.cons_prefix_cons.1 hpre).1.symm hc

theorem Follows.of_blank {c : Char} (h : isBlank c = true) (cs : Text) :
    Follows (c :: cs) (.whitespace, 1 + (cs.takeWhile isBlank).length) := by
  rw [Nat.add_comm]
  refine .of_run whitespace ?_ (fun v hv => ?_) fun q hq => ?_
  · exact mem_whitespace.2 ⟨c, _, rfl, h, fun d hd => List.mem_takeWhile_imp hd⟩
  · obtain ⟨_, _, he, -, hv⟩ := mem_whitespace.1 hv
    cases he
    exact hv
  · rw [ofFirst_blank h, List.mem_singleton] at hq
    exact .inl hq

theorem Follows.of_letter {c : Char} (h : isIdentStart c = true) (cs : Text) :
    Follows (c :: cs) (Lexeme.word (c :: cs)) := by
  have hword : Lexeme.word (c :: cs) =
      token .word (c :: cs.takeWhile isIdentContinue) (cs.dropWhile isIdentContinue) := by
    rw [Lexeme.word, identLength, if_pos h, Nat.add_comm, List.take_succ_cons,
      ← List.prefix_iff_eq_take.1 (List.takeWhile_prefix isIdentContinue)]
    rfl
  rw [hword]
  refine .of_run Pattern.word ?_ (fun v hv => ?_) fun q hq => ?_
  · exact mem_word.2 ⟨c, _, rfl, h, fun d hd => List.mem_takeWhile_imp hd⟩
  · obtain ⟨_, _, he, -, hv⟩ := mem_word.1 hv
    cases he
    exact hv
  · rw [ofFirst_letter h, List.mem_singleton] at hq
    exact .inl hq

theorem Follows.of_lineComment {rest : Text} (h : ∀ tail, rest = '*' :: tail → False) :
    Follows ('\\' :: rest)
      (.lineComment, 1 + (rest.takeWhile fun c => !isLineEnd c).length) := by
  rw [Nat.add_comm]
  refine .of_run lineComment ?_ (fun v hv => ?_) fun q hq => ?_
  · refine mem_lineComment.2 ⟨_, rfl, ?_, fun d hd => by simpa using List.mem_takeWhile_imp hd⟩
    intro hhead
    obtain ⟨tail, htail⟩ := List.head?_eq_some_iff.1 hhead
    obtain ⟨more, hmore⟩ := List.takeWhile_prefix (l := rest) fun c => !isLineEnd c
    rw [htail] at hmore
    exact h _ hmore.symm
  · obtain ⟨_, he, -, hv⟩ := mem_lineComment.1 hv
    cases he
    simpa using hv
  · obtain rfl | rfl := List.mem_pair.1 (show q ∈ [lineComment, blockComment] from hq)
    · exact .inl rfl
    · refine .inr fun v hv hpre => ?_
      rw [List.mem_singleton.1 hv, List.cons_prefix_cons] at hpre
      exact not_singleton_prefix h hpre.2

theorem Follows.of_blockComment (rest : Text) :
    Follows ('\\' :: '*' :: rest) (.blockComment, 2 + commentTailLength rest) := by
  refine .of_first blockComment '\\' ['*'] (mem_oneOf.2 (by decide)) fun q hq v hv hpre => ?_
  obtain rfl | rfl := List.mem_pair.1 (show q ∈ [lineComment, blockComment] from hq)
  · obtain ⟨u, rfl, hstar, -⟩ := mem_lineComment.1 hv
    cases u with
    | nil => simp
    | cons d u =>
      simp only [List.cons_append, List.nil_append, List.cons_prefix_cons, true_and] at hpre
      exact absurd (congrArg some hpre.1) hstar
  · rw [List.mem_singleton.1 hv]
    simp

/-- **The lexer follows the rule with the longest word.** -/
theorem follows_rule? {cs : Text} {t : Kind × Nat} (h : rule? cs = some t) : Follows cs t := by
  rw [rule?.eq_def] at h
  split at h
  case h_1 rest =>
    cases h
    exact .of_first newline '\r' ['\n'] (mem_oneOf.2 (by decide))
      (by simp [ofFirst, isBlank, isLineEnd, words, mem_oneOf])
  case h_2 rest hrest =>
    cases h
    exact .of_first newline '\r' [] (mem_oneOf.2 (by decide))
      (by simp [ofFirst, isBlank, isLineEnd, words, mem_oneOf, not_singleton_prefix hrest])
  case h_3 rest =>
    cases h
    exact .of_first newline '\n' [] (mem_oneOf.2 (by decide))
      (by simp [ofFirst, isBlank, isLineEnd, words, mem_oneOf])
  case h_4 rest =>
    cases h
    exact .of_blockComment rest
  case h_5 rest hrest =>
    cases h
    exact .of_lineComment hrest
  case h_6 rest =>
    cases h
    exact .of_first plus '+' [] (mem_oneOf.2 (by decide))
      (by simp [ofFirst, isBlank, isLineEnd, words, mem_oneOf])
  case h_7 rest =>
    cases h
    exact .of_first minus '-' [] (mem_oneOf.2 (by decide))
      (by simp [ofFirst, isBlank, isLineEnd, words, mem_oneOf])
  case h_8 rest =>
    cases h
    exact .of_first ltEq '<' ['='] (mem_oneOf.2 (by decide))
      (by simp [ofFirst, isBlank, isLineEnd, words, mem_oneOf])
  case h_9 rest h =>
    cases h
    exact .of_first lt '<' [] (mem_oneOf.2 (by decide))
      (by simp [ofFirst, isBlank, isLineEnd, words, mem_oneOf, not_singleton_prefix h])
  case h_10 rest =>
    cases h
    exact .of_first gtEq '>' ['='] (mem_oneOf.2 (by decide))
      (by simp [ofFirst, isBlank, isLineEnd, words, mem_oneOf])
  case h_11 rest h =>
    cases h
    exact .of_first gt '>' [] (mem_oneOf.2 (by decide))
      (by simp [ofFirst, isBlank, isLineEnd, words, mem_oneOf, not_singleton_prefix h])
  case h_12 rest =>
    cases h
    exact .of_first ltEq '=' ['<'] (mem_oneOf.2 (by decide))
      (by simp [ofFirst, isBlank, isLineEnd, words, mem_oneOf])
  case h_13 rest =>
    cases h
    exact .of_first gtEq '=' ['>'] (mem_oneOf.2 (by decide))
      (by simp [ofFirst, isBlank, isLineEnd, words, mem_oneOf])
  case h_14 rest h₁ h₂ =>
    cases h
    exact .of_first eq '=' [] (mem_oneOf.2 (by decide))
      (by simp [ofFirst, isBlank, isLineEnd, words, mem_oneOf, not_singleton_prefix h₁,
        not_singleton_prefix h₂])
  case h_15 rest =>
    cases h
    exact .of_first colon2 ':' [':'] (mem_oneOf.2 (by decide))
      (by simp [ofFirst, isBlank, isLineEnd, words, mem_oneOf])
  case h_16 rest h =>
    cases h
    exact .of_first colon ':' [] (mem_oneOf.2 (by decide))
      (by simp [ofFirst, isBlank, isLineEnd, words, mem_oneOf, not_singleton_prefix h])
  case h_17 rest =>
    cases h
    exact .of_first lParen '(' [] (mem_oneOf.2 (by decide))
      (by simp [ofFirst, isBlank, isLineEnd, words, mem_oneOf])
  case h_18 rest =>
    cases h
    exact .of_first rParen ')' [] (mem_oneOf.2 (by decide))
      (by simp [ofFirst, isBlank, isLineEnd, words, mem_oneOf])
  case h_19 c cs _ _ _ _ _ _ _ _ _ _ _ _ _ _ _ _ _ _ =>
    split_ifs at h with h₁ h₂ h₃
    · cases h
      exact .of_blank h₁ cs
    · cases h
      exact .of_number h₂
    · cases h
      exact .of_letter h₃ cs
  case h_20 => cases h

end Pattern

/-! ## Where a token starts -/

theorem startsToken_of_takes {p : Pattern} {w cs : Text} (h : p.Takes w cs) :
    startsToken cs = true := by
  obtain ⟨hw, rest, rfl⟩ := h
  cases p with
  | whitespace =>
    obtain ⟨c, v, rfl, hc, -⟩ := Pattern.mem_whitespace.1 hw
    simp only [isBlank, Bool.or_eq_true, beq_iff_eq] at hc
    obtain (rfl | rfl) | rfl := hc <;> rfl
  | lineComment =>
    obtain ⟨v, rfl, -⟩ := Pattern.mem_lineComment.1 hw
    rfl
  | word =>
    obtain ⟨c, v, rfl, hc, -⟩ := Pattern.mem_word.1 hw
    simp [startsToken, hc]
  | number =>
    obtain ⟨d, hd, rfl | rfl⟩ := Pattern.mem_number.1 hw
    · have hpoint : d ≠ '.' := by
        rintro rfl
        exact absurd hd (by decide)
      simp [startsToken, startsNumber_cons hpoint, hd]
    · simp [startsToken, startsNumber, hd]
  | newline =>
    simp only [Pattern.words, Pattern.mem_oneOf, List.mem_cons, List.not_mem_nil, or_false] at hw
    obtain rfl | rfl | rfl := hw <;> rfl
  | ltEq | gtEq => obtain rfl | rfl := List.mem_pair.1 hw <;> rfl
  | _ =>
    cases List.mem_singleton.1 hw
    rfl

theorem exists_rule?_of_startsToken {cs : Text} (h : startsToken cs = true) :
    ∃ t, rule? cs = some t := by
  rw [rule?.eq_def]
  split
  case h_19 c cs _ _ _ _ _ _ _ _ _ _ _ _ _ _ _ _ _ _ =>
    rw [← Option.isSome_iff_exists]
    split_ifs with h₁ h₂ h₃
    · rfl
    · rfl
    · rfl
    · simp_all [startsToken, tokenStarts, isBlank]
  case h_20 => cases h
  all_goals exact ⟨_, rfl⟩

/-- **A token starts where some rule takes a word.** -/
theorem startsToken_iff {cs : Text} :
    startsToken cs = true ↔ ∃ (p : Pattern) (w : Text), p.Takes w cs := by
  constructor
  · intro h
    obtain ⟨t, ht⟩ := exists_rule?_of_startsToken h
    obtain ⟨p, w, -, -, hwins, -⟩ := Pattern.follows_rule? ht
    exact ⟨p, w, hwins.takes⟩
  · rintro ⟨p, w, h⟩
    exact startsToken_of_takes h

theorem isAlpha_of_toLower {c : Char} (h : c.toLower.isAlpha = true) : c.isAlpha = true := by
  by_cases hu : c.isUpper = true
  · simp [Char.isAlpha, hu]
  · have hself : c.toLower = c := by
      simp only [Char.isUpper, decide_eq_true_eq] at hu
      rw [Char.toLower, dif_neg hu]
    rwa [hself] at h

/-- A keyword begins with a letter. -/
theorem exists_letter_of_keyword {cs : Text} {t : Kind × Nat}
    (h : Grammar.matchKeyword? cs = some t) : ∃ c rest, cs = c :: rest ∧ c.isAlpha = true := by
  obtain ⟨k, hk, hm⟩ := List.exists_of_findSome?_eq_some h
  obtain ⟨n, hn, -⟩ := Option.map_eq_some_iff.1 hm
  have htable : (Grammar.keywords.all fun k => k.words.head?.any fun w => w.toList.head?.any
      fun d => d.toLower.isAlpha) = true := by decide
  obtain ⟨w, hw, hfirst⟩ := (Option.any_eq_true _ _).1 (List.all_eq_true.1 htable k hk)
  obtain ⟨d, hd, halpha⟩ := (Option.any_eq_true _ _).1 hfirst
  obtain ⟨words, hwords⟩ := List.head?_eq_some_iff.1 hw
  obtain ⟨ds, hds⟩ := List.head?_eq_some_iff.1 hd
  have hsame : Text.sameLetters (cs.take w.toList.length) w.toList = true := by
    by_contra hno
    rw [Keyword.matchLength?, hwords, Keyword.wordsLength?, if_neg hno] at hn
    cases hn
  cases cs with
  | nil => simp [Text.sameLetters, hds] at hsame
  | cons c cs =>
    simp only [Text.sameLetters, hds, List.length_cons, List.take_succ_cons, List.map_cons,
      beq_iff_eq, List.cons.injEq] at hsame
    exact ⟨c, cs, rfl, isAlpha_of_toLower (hsame.1 ▸ halpha)⟩

theorem startsToken_of_keyword {cs : Text} {t : Kind × Nat}
    (h : Grammar.matchKeyword? cs = some t) : startsToken cs = true := by
  obtain ⟨c, rest, rfl, hc⟩ := exists_letter_of_keyword h
  simp [startsToken, isIdentStart, hc]

/-- A lexical rule or a keyword applies at the start of a text. -/
def IsLexical (cs : Text) : Prop :=
  (∃ (p : Pattern) (w : Text), p.Takes w cs) ∨
    ∃ k ∈ Grammar.keywords, ∃ n, k.matchLength? cs = some n

theorem isLexical_iff {cs : Text} : IsLexical cs ↔ startsToken cs = true := by
  constructor
  · rintro (h | ⟨k, hk, n, hn⟩)
    · exact startsToken_iff.2 h
    · have hsome : (Grammar.matchKeyword? cs).isSome = true := by
        rw [Grammar.matchKeyword?, List.findSome?_isSome_iff]
        exact ⟨k, hk, by simp [hn]⟩
      obtain ⟨t, ht⟩ := Option.isSome_iff_exists.1 hsome
      exact startsToken_of_keyword ht
  · intro h
    exact .inl (startsToken_iff.1 h)

/-! ## Error tokens -/

theorem numberScan_kind_ne (cs : Text) : (Number.scan cs).1 ≠ .errorToken := by
  rw [Number.scan]
  split_ifs <;> exact Kind.noConfusion

theorem signed_kind_ne {operator : Kind} (h : operator ≠ .errorToken) (cs : Text) :
    (signed operator cs).1 ≠ .errorToken := by
  rw [signed]
  split_ifs
  · exact numberScan_kind_ne cs
  · simp only
    split_ifs
    · exact Kind.noConfusion
    · exact h

/-- No rule gives an error token. -/
theorem Pattern.token_kind_ne (p : Pattern) (w rest : Text) :
    (p.token w rest).1 ≠ .errorToken := by
  cases p with
  | number => exact numberScan_kind_ne _
  | plus | minus => exact signed_kind_ne Kind.noConfusion _
  | word =>
    rw [token]
    split_ifs <;> exact Kind.noConfusion
  | _ => exact Kind.noConfusion

theorem keyword_kind_ne {cs : Text} {t : Kind × Nat} (h : Grammar.matchKeyword? cs = some t) :
    t.1 ≠ .errorToken := by
  obtain ⟨k, hk, hm⟩ := List.exists_of_findSome?_eq_some h
  obtain ⟨n, -, rfl⟩ := Option.map_eq_some_iff.1 hm
  exact (show ∀ k ∈ Grammar.keywords, k.kind ≠ .errorToken by decide) k hk

/-- An error token stands where no rule and no keyword applies. -/
theorem scan_eq_errorToken_iff (mode : Mode) {cs : Text} :
    (scan mode cs).1 = .errorToken ↔ startsToken cs = false := by
  rw [scan]
  cases hk : keyword? mode cs with
  | some t =>
    cases mode with
    | inline => cases hk
    | statementStart =>
      simp [keyword_kind_ne hk, startsToken_of_keyword hk]
  | none =>
    by_cases hs : startsToken cs = true
    · obtain ⟨t, ht⟩ := exists_rule?_of_startsToken hs
      obtain ⟨p, w, rest, -, -, rfl⟩ := Pattern.follows_rule? ht
      simp [hs, ht, p.token_kind_ne w rest]
    · simp [hs]

theorem scan_errorToken (mode : Mode) {cs : Text} (h : startsToken cs = false) :
    scan mode cs = (.errorToken, errorLength cs) := by
  have hk : keyword? mode cs = none := by
    cases mode with
    | inline => rfl
    | statementStart =>
      by_contra hno
      obtain ⟨t, ht⟩ := Option.ne_none_iff_exists'.1 hno
      rw [startsToken_of_keyword ht] at h
      cases h
  rw [scan, hk]
  simp [h]

theorem not_startsToken_drop {cs : Text} {n : Nat} (h : n < lengthToToken cs) :
    startsToken (cs.drop n) = false := by
  induction cs generalizing n with
  | nil => cases h
  | cons c cs ih =>
    rw [lengthToToken] at h
    split_ifs at h with hs
    · cases h
    · cases n with
      | zero => simpa using hs
      | succ n => exact ih (by omega)

theorem startsToken_drop_lengthToToken {cs : Text} (h : cs.drop (lengthToToken cs) ≠ []) :
    startsToken (cs.drop (lengthToToken cs)) = true := by
  induction cs with
  | nil => exact absurd rfl h
  | cons c cs ih =>
    rw [lengthToToken] at h ⊢
    split_ifs with hs
    · exact hs
    · rw [if_neg hs, Nat.add_comm, List.drop_succ_cons] at h
      rw [Nat.add_comm, List.drop_succ_cons]
      exact ih h

end Lexeme

end LpFormat
