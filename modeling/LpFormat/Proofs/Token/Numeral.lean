import LpFormat.Binary64
import LpFormat.Proofs.Text.Scan
import LpFormat.Proofs.Token.Rules

/-!
# Written numbers

* `Number.numeral`: numbers without a sign, as a language;
* `Number.take_length_mem`: what is taken where a number starts;
* `Number.IsWritten`, **`Lexeme.isWritten_of_scan`**: the text of a number token is a number with an
  optional sign;
* **`Number.IsWritten.exists_value`**: every such text has a value, which is not a NaN.
-/

namespace LpFormat

open Computability

namespace Number

/-- One digit. -/
def digit : Language Char := single fun c => c.isDigit = true

/-- Digits with an optional point behind or among them, or with a point in front. -/
def mantissa : Language Char :=
  digit * digit∗ * optional (single (· = '.') * digit∗) + single (· = '.') * (digit * digit∗)

/-- The letter of an exponent, an optional sign, and digits. -/
def exponent : Language Char :=
  single (fun c => c = 'e' ∨ c = 'E') * optional (single fun c => isSign c = true) *
    (digit * digit∗)

/-- A number without a sign. -/
def numeral : Language Char := mantissa * optional exponent

/-- A number with an optional sign. -/
def IsWritten (w : Text) : Prop := ∃ sign body, w = sign ++ body ∧
  (sign = [] ∨ sign = ['+'] ∨ sign = ['-']) ∧ body ∈ numeral

theorem mem_digits {w : Text} : w ∈ digit * digit∗ ↔ w ≠ [] ∧ ∀ c ∈ w, c.isDigit = true := by
  rw [digit, mem_single_mul_kstar]
  constructor
  · rintro ⟨c, v, rfl, hc, hv⟩
    exact ⟨List.cons_ne_nil _ _, List.forall_mem_cons.2 ⟨hc, hv⟩⟩
  · rintro ⟨hne, hw⟩
    cases w with
    | nil => exact absurd rfl hne
    | cons c v => exact ⟨c, v, rfl, List.forall_mem_cons.1 hw⟩

/-- The digits before and after the point of a mantissa. -/
theorem mem_mantissa {w : Text} : w ∈ mantissa ↔ ∃ whole fraction : Text,
    (∀ c ∈ whole, c.isDigit = true) ∧ (∀ c ∈ fraction, c.isDigit = true) ∧
      whole ++ fraction ≠ [] ∧ (w = whole ∧ fraction = [] ∨ w = whole ++ '.' :: fraction) := by
  rw [mantissa, Language.mem_add]
  constructor
  · rintro (⟨whole, hwhole, rest, hrest, rfl⟩ | ⟨point, ⟨_, rfl, rfl⟩, fraction, hfraction, rfl⟩)
    · obtain ⟨hne, hwhole⟩ := mem_digits.1 hwhole
      obtain rfl | ⟨point, ⟨_, rfl, rfl⟩, fraction, hfraction, rfl⟩ := hrest
      · exact ⟨whole, [], hwhole, List.forall_mem_nil _, by simpa using hne,
          .inl ⟨List.append_nil _, rfl⟩⟩
      · exact ⟨whole, fraction, hwhole, mem_kstar_single.1 hfraction, by simp [hne], .inr rfl⟩
    · obtain ⟨hne, hfraction⟩ := mem_digits.1 hfraction
      exact ⟨[], fraction, List.forall_mem_nil _, hfraction, hne, .inr rfl⟩
  · rintro ⟨whole, fraction, hwhole, hfraction, hne, ⟨rfl, rfl⟩ | rfl⟩
    · refine .inl ⟨w, mem_digits.2 ⟨by simpa using hne, hwhole⟩, [], .inl rfl, List.append_nil _⟩
    · by_cases hw : whole = []
      · subst hw
        exact .inr ⟨['.'], mem_single.2 rfl, fraction, mem_digits.2 ⟨hne, hfraction⟩, rfl⟩
      · refine .inl (Language.append_mem_mul (mem_digits.2 ⟨hw, hwhole⟩) (.inr ?_))
        exact ⟨['.'], mem_single.2 rfl, fraction, mem_kstar_single.2 hfraction, rfl⟩

theorem mem_exponent {w : Text} : w ∈ exponent ↔ ∃ (c : Char) (sign ds : Text),
    w = c :: (sign ++ ds) ∧ (c = 'e' ∨ c = 'E') ∧ (sign = [] ∨ ∃ s, isSign s = true ∧ sign = [s]) ∧
      ds ≠ [] ∧ ∀ d ∈ ds, d.isDigit = true := by
  rw [exponent]
  constructor
  · rintro ⟨_, ⟨_, ⟨c, hc, rfl⟩, sign, hsign, rfl⟩, ds, hds, rfl⟩
    exact ⟨c, sign, ds, by simp, hc, hsign, mem_digits.1 hds⟩
  · rintro ⟨c, sign, ds, rfl, hc, hsign, hds⟩
    rw [← List.cons_append, ← List.singleton_append]
    exact Language.append_mem_mul (Language.append_mem_mul (mem_single.2 hc) hsign)
      (mem_digits.2 hds)

/-! ## What is taken where a number starts -/

theorem take_digitsLength (cs : Text) : cs.take (digitsLength cs) = cs.takeWhile Char.isDigit :=
  (List.prefix_iff_eq_take.1 (List.takeWhile_prefix _)).symm

theorem isDigit_of_mem_takeWhile {cs : Text} :
    ∀ c ∈ cs.takeWhile Char.isDigit, c.isDigit = true := fun _ hc => List.mem_takeWhile_imp hc

/-- A number starts with a digit, or with a point and a digit. -/
theorem startsNumber_iff {cs : Text} : startsNumber cs = true ↔
    ∃ (d : Char) (rest : Text), d.isDigit = true ∧ (cs = d :: rest ∨ cs = '.' :: d :: rest) := by
  constructor
  · intro h
    cases cs with
    | nil => cases h
    | cons c cs =>
      by_cases hc : c = '.'
      · subst hc
        cases cs with
        | nil => cases h
        | cons d cs => exact ⟨d, cs, h, .inr rfl⟩
      · rw [startsNumber_cons hc] at h
        exact ⟨c, cs, h, .inl rfl⟩
  · rintro ⟨d, rest, hd, rfl | rfl⟩
    · have hpoint : d ≠ '.' := by
        rintro rfl
        exact absurd hd (by decide)
      rwa [startsNumber_cons hpoint]
    · exact hd

theorem take_mantissaLength_mem {cs : Text} (h : startsNumber cs = true) :
    cs.take (mantissaLength cs) ∈ mantissa := by
  have htake := take_digitsLength cs
  obtain ⟨d, ds, hd, hcs⟩ := startsNumber_iff.1 h
  have hpoint : digitsLength ('.' :: d :: ds) = 0 := by
    rw [digitsLength, List.takeWhile_cons_of_neg (by decide), List.length_nil]
  rw [mem_mantissa, mantissaLength]
  split
  · rename_i rest hrest
    refine ⟨cs.takeWhile Char.isDigit, rest.takeWhile Char.isDigit, isDigit_of_mem_takeWhile,
      isDigit_of_mem_takeWhile, ?_, .inr ?_⟩
    · obtain rfl | rfl := hcs
      · simp [hd]
      · rw [hpoint] at hrest
        cases hrest
        simp [hd]
    · rw [Nat.add_assoc, List.take_add, htake, hrest, Nat.add_comm, List.take_succ_cons,
        take_digitsLength]
  · rename_i hno
    refine ⟨cs.takeWhile Char.isDigit, [], isDigit_of_mem_takeWhile, List.forall_mem_nil _, ?_,
      .inl ⟨htake, rfl⟩⟩
    obtain rfl | rfl := hcs
    · simp [hd]
    · rw [hpoint] at hno
      exact absurd rfl (hno (d :: ds))

theorem take_signLength (cs : Text) : cs.take (signLength cs) = [] ∨
    ∃ s, isSign s = true ∧ cs.take (signLength cs) = [s] := by
  rw [signLength]
  split_ifs with h
  · obtain ⟨s, hs, hsign⟩ := (Option.any_eq_true _ _).1 h
    obtain ⟨rest, rfl⟩ := List.head?_eq_some_iff.1 hs
    exact .inr ⟨s, hsign, rfl⟩
  · exact .inl rfl

theorem take_exponentLength_mem (cs : Text) :
    cs.take (exponentLength cs) ∈ optional exponent := by
  cases cs with
  | nil => exact .inl rfl
  | cons c cs =>
    simp only [exponentLength]
    split_ifs with hc hpos
    · refine .inr (mem_exponent.2 ⟨c, cs.take (signLength cs),
        (cs.drop (signLength cs)).takeWhile Char.isDigit, ?_, hc, take_signLength cs, ?_,
        isDigit_of_mem_takeWhile⟩)
      · rw [Nat.add_assoc, Nat.add_comm, List.take_succ_cons, List.take_add, take_digitsLength]
      · exact List.length_pos_iff.1 hpos
    · exact .inl rfl
    · exact .inl rfl

theorem take_length_mem {cs : Text} (h : startsNumber cs = true) :
    cs.take (length cs) ∈ numeral := by
  rw [length, List.take_add]
  exact Language.append_mem_mul (take_mantissaLength_mem h) (take_exponentLength_mem _)

theorem scan_eq_number {cs : Text} {n : Nat} (h : scan cs = (.number, n)) : n = length cs := by
  rw [scan] at h
  split_ifs at h
  · exact absurd (Prod.mk.inj h).1 Kind.noConfusion
  · exact (Prod.mk.inj h).2.symm

end Number

/-! ## Number tokens -/

namespace Lexeme

theorem isWritten_of_signed {operator : Kind} (ho : operator ≠ .number) {c : Char}
    (hc : c = '+' ∨ c = '-') {rest : Text} {n : Nat}
    (h : signed operator rest = (.number, n)) : Number.IsWritten ((c :: rest).take n) := by
  rw [signed] at h
  split_ifs at h with hs
  · cases hscan : Number.scan rest with
    | mk kind m =>
      rw [hscan] at h
      obtain ⟨rfl, rfl⟩ := Prod.mk.inj h
      rw [Number.scan_eq_number hscan, Nat.add_comm, List.take_succ_cons]
      refine ⟨[c], _, rfl, .inr ?_, Number.take_length_mem hs⟩
      simpa using hc
  · simp only at h
    split_ifs at h
    · exact absurd (Prod.mk.inj h).1 Kind.noConfusion
    · exact absurd (Prod.mk.inj h).1 ho

theorem rule?_of_scan {mode : Mode} {cs : Text} {kind : Kind} {n : Nat}
    (h : scan mode cs = (kind, n)) (herror : kind ≠ .errorToken)
    (hkeyword : kind.isSectionKeyword = false) : rule? cs = some (kind, n) := by
  have hs : startsToken cs = true := by
    by_contra hno
    exact herror ((congrArg Prod.fst h).symm.trans
      ((scan_eq_errorToken_iff mode).2 (Bool.not_eq_true _ ▸ hno)))
  obtain ⟨t, ht⟩ := exists_rule?_of_startsToken hs
  rw [scan] at h
  split at h
  · rename_i keyword hk
    subst h
    cases mode with
    | inline => cases hk
    | statementStart =>
      obtain ⟨k, hmem, hm⟩ := List.exists_of_findSome?_eq_some hk
      obtain ⟨m, -, he⟩ := Option.map_eq_some_iff.1 hm
      have htable : ∀ k ∈ Grammar.keywords, k.kind.isSectionKeyword = true := by decide
      have hkind := htable k hmem
      rw [(Prod.mk.inj he).1, hkeyword] at hkind
      cases hkind
  · rw [if_pos hs, ht, Option.getD_some] at h
    rw [ht, h]

/-- **The text of a number token is a number with an optional sign.** -/
theorem isWritten_of_scan {mode : Mode} {cs : Text} {n : Nat}
    (h : scan mode cs = (.number, n)) : Number.IsWritten (cs.take n) := by
  obtain ⟨p, w, rest, rfl, hwins, htoken⟩ :=
    Pattern.follows_rule? (rule?_of_scan h Kind.noConfusion rfl)
  cases p with
  | number =>
    have hs : startsNumber (w ++ rest) = true := by
      obtain ⟨d, hd, rfl | rfl⟩ := Pattern.mem_number.1 hwins.takes.1
      · exact Number.startsNumber_iff.2 ⟨d, rest, hd, .inl rfl⟩
      · exact Number.startsNumber_iff.2 ⟨d, rest, hd, .inr rfl⟩
    rw [Number.scan_eq_number htoken]
    exact ⟨[], _, rfl, .inl rfl, Number.take_length_mem hs⟩
  | plus =>
    cases List.mem_singleton.1 hwins.takes.1
    exact isWritten_of_signed Kind.noConfusion (.inl rfl) htoken
  | minus =>
    cases List.mem_singleton.1 hwins.takes.1
    exact isWritten_of_signed Kind.noConfusion (.inr rfl) htoken
  | word =>
    rw [Pattern.token] at htoken
    split_ifs at htoken <;> cases htoken
  | _ => cases htoken

end Lexeme

/-! ## Values -/

theorem Number.not_isSign_digit {c : Char} (h : c.isDigit = true) : isSign c = false := by
  rw [isSign, Bool.or_eq_false_iff, beq_eq_false_iff_ne, beq_eq_false_iff_ne]
  constructor <;> rintro rfl <;> exact absurd h (by decide)

theorem Number.signLength_append {sign rest : Text}
    (hsign : sign = [] ∨ ∃ s, isSign s = true ∧ sign = [s])
    (hrest : ∀ c ∈ rest.head?, isSign c = false) : signLength (sign ++ rest) = sign.length := by
  obtain rfl | ⟨s, hs, rfl⟩ := hsign
  · cases rest with
    | nil => rfl
    | cons c rest => simp [signLength, hrest c rfl]
  · simp [signLength, hs]

/-- Digits in front of a text are among those that it starts with. -/
theorem Number.le_digitsLength {ds : Text} (hds : ∀ d ∈ ds, d.isDigit = true) (rest : Text) :
    ds.length ≤ digitsLength (ds ++ rest) := by
  rw [digitsLength, List.takeWhile_append_of_pos hds, List.length_append]
  exact Nat.le_add_right _ _

/-- No exponent at the start of a text goes beyond what is taken there. -/
theorem Number.le_exponentLength {e : Text} (he : e ∈ optional exponent) (rest : Text) :
    e.length ≤ exponentLength (e ++ rest) := by
  obtain rfl | he := he
  · exact Nat.zero_le _
  · obtain ⟨c, sign, ds, rfl, hc, hsign, hne, hds⟩ := mem_exponent.1 he
    have hhead : ∀ d ∈ (ds ++ rest).head?, isSign d = false := by
      intro d hd
      rw [List.head?_append_of_ne_nil _ hne] at hd
      exact not_isSign_digit (hds d (List.mem_of_mem_head? hd))
    have hlen := le_digitsLength hds rest
    have hpos := List.length_pos_iff.2 hne
    rw [List.cons_append, List.append_assoc]
    simp only [exponentLength, signLength_append hsign hhead, List.drop_left, if_pos hc]
    rw [if_pos (by omega), List.length_cons, List.length_append]
    omega

theorem Number.head?_exponent {e : Text} (h : e ∈ optional exponent) :
    ∀ c ∈ e.head?, c = 'e' ∨ c = 'E' := by
  obtain rfl | h := h
  · rintro c ⟨⟩
  · obtain ⟨c, sign, ds, rfl, hc, -⟩ := mem_exponent.1 h
    rintro d ⟨⟩
    exact hc

theorem Number.head?_numeral {w : Text} (h : w ∈ numeral) : ∀ c ∈ w.head?, isSign c = false := by
  obtain ⟨m, hm, e, -, rfl⟩ := h
  obtain ⟨whole, fraction, hwhole, hfraction, hne, hm⟩ := mem_mantissa.1 hm
  intro c hc
  cases whole with
  | nil =>
    obtain ⟨-, rfl⟩ | rfl := hm
    · exact absurd rfl hne
    · cases hc
      decide
  | cons d whole =>
    have hd := hwhole d List.mem_cons_self
    obtain ⟨rfl, -⟩ | rfl := hm <;> cases hc <;> exact not_isSign_digit hd

namespace Binary64

theorem ofQuotient_magnitude_le (num den : Nat) :
    (ofQuotient num den).magnitude ≤ infinityMagnitude := Nat.min_le_left _ _

theorem ofDecimal_magnitude_le (m : Nat) (e : Int) :
    (ofDecimal m e).magnitude ≤ infinityMagnitude := by
  rw [ofDecimal]
  split_ifs
  · exact Nat.zero_le _
  · exact Nat.le_refl _
  · exact ofQuotient_magnitude_le _ _

/-- An exponent is read to its end. -/
theorem exponentOf_eq {e : Text} (h : e ∈ optional Number.exponent) :
    ∃ n, exponentOf e = (n, []) := by
  have hle := Number.le_exponentLength h []
  rw [List.append_nil] at hle
  have hlength := Nat.le_antisymm (Number.exponentLength_le e) hle
  exact ⟨_, by rw [exponentOf, hlength, List.drop_length]⟩

theorem exists_ofUnsigned? {w : Text} (h : w ∈ Number.numeral) :
    ∃ v, ofUnsigned? w = some v ∧ v.magnitude ≤ infinityMagnitude := by
  obtain ⟨m, hm, e, he, rfl⟩ := h
  obtain ⟨whole, fraction, hwhole, hfraction, hne, hm⟩ := Number.mem_mantissa.1 hm
  obtain ⟨n, hn⟩ := exponentOf_eq he
  have hhead := Number.head?_exponent he
  have hdigit : ∀ c ∈ e.head?, c.isDigit = false := by
    intro c hc
    obtain rfl | rfl := hhead c hc <;> decide
  refine ⟨ofDecimal (ofDigits (whole ++ fraction)) (n - fraction.length), ?_,
    ofDecimal_magnitude_le _ _⟩
  obtain ⟨rfl, rfl⟩ | rfl := hm
  · rw [ofUnsigned?]
    simp only [takeWhile_append_stop hwhole hdigit, dropWhile_append_stop hwhole hdigit]
    split
    · exact absurd (hhead '.' rfl) (by decide)
    · simp only [hn]
      exact if_pos ⟨trivial, hne⟩
  · have hpoint : ∀ c ∈ ('.' :: (fraction ++ e)).head?, c.isDigit = false := by
      rintro c ⟨⟩
      decide
    rw [ofUnsigned?]
    simp only [List.append_assoc, List.cons_append, takeWhile_append_stop hwhole hpoint,
      dropWhile_append_stop hwhole hpoint, takeWhile_append_stop hfraction hdigit,
      dropWhile_append_stop hfraction hdigit, hn]
    exact if_pos ⟨trivial, hne⟩

end Binary64

/-- **Every written number has a value, and it is not a NaN.** -/
theorem Number.IsWritten.exists_value {w : Text} (h : IsWritten w) :
    ∃ v, Binary64.ofText? w = some v ∧ v.magnitude ≤ Binary64.infinityMagnitude := by
  obtain ⟨sign, body, rfl, hsign, hbody⟩ := h
  obtain ⟨v, hv, hle⟩ := Binary64.exists_ofUnsigned? hbody
  have hlength : signLength (sign ++ body) = sign.length := by
    refine signLength_append ?_ (head?_numeral hbody)
    obtain rfl | rfl | rfl := hsign
    · exact .inl rfl
    · exact .inr ⟨'+', rfl, rfl⟩
    · exact .inr ⟨'-', rfl, rfl⟩
  refine ⟨v.withSign ((sign ++ body).head? == some '-'), ?_, hle⟩
  rw [Binary64.ofText?, hlength, List.drop_left, hv, Option.map_some]

end LpFormat
