import LpFormat.Proofs.Token.Cut
import LpFormat.Proofs.Token.Numeral

/-!
# Numbers are taken as long as they go

* `Number.IsLongest`: the longest number at the start of a text;
* `Number.le_mantissaLength`, `Number.mantissaLength_eq_of_exponent`: how far mantissas reach;
* **`Number.isLongest_take`**: no number at the start of a text goes beyond what is taken there;
* `Number.Munches`, `Lexeme.scan_number`, **`Reader.munches_next`**: the token where a number with
  an optional sign starts, in either mode.
-/

namespace LpFormat

open Computability

namespace Number

/-- The longest number at the start of a text. -/
structure IsLongest (w cs : Text) : Prop where
  mem : w ∈ numeral
  starts : w <+: cs
  most : ∀ v ∈ numeral, v <+: cs → v.length ≤ w.length

theorem le_mantissaLength {m : Text} (hm : m ∈ mantissa) (rest : Text) :
    m.length ≤ mantissaLength (m ++ rest) := by
  obtain ⟨whole, fraction, hwhole, hfraction, -, ⟨rfl, -⟩ | rfl⟩ := mem_mantissa.1 hm
  · exact Nat.le_trans (le_digitsLength hwhole rest) (digitsLength_le_mantissaLength _)
  · have hpoint : ∀ c ∈ ('.' :: (fraction ++ rest)).head?, c.isDigit = false := by
      rintro c ⟨⟩
      decide
    have hdigits : digitsLength (whole ++ '.' :: (fraction ++ rest)) = whole.length := by
      rw [digitsLength, takeWhile_append_stop hwhole hpoint]
    have := le_digitsLength hfraction rest
    rw [List.append_assoc, List.cons_append, mantissaLength_eq, hdigits, List.drop_left,
      List.head?_cons, if_pos rfl, List.length_append, List.length_cons, List.drop_one,
      List.tail_cons]
    omega

theorem isDigitOrPoint_of_mem_mantissa {m : Text} (hm : m ∈ mantissa) :
    ∀ c ∈ m, isDigitOrPoint c = true := by
  have hdigit {ds : Text} (hds : ∀ d ∈ ds, d.isDigit = true) : ∀ d ∈ ds, isDigitOrPoint d = true :=
    fun d hd => by rw [isDigitOrPoint, hds d hd, Bool.true_or]
  obtain ⟨whole, fraction, hwhole, hfraction, -, ⟨rfl, -⟩ | rfl⟩ := mem_mantissa.1 hm
  · exact hdigit hwhole
  · rw [List.forall_mem_append, List.forall_mem_cons]
    exact ⟨hdigit hwhole, rfl, hdigit hfraction⟩

/-- An exponent goes on where the longest mantissa ends, since no mantissa holds its letter. -/
theorem mantissaLength_eq_of_exponent {m e rest : Text} (hm : m ∈ mantissa)
    (he : e ∈ optional exponent) (hne : e ≠ []) (h : startsNumber (m ++ (e ++ rest)) = true) :
    mantissaLength (m ++ (e ++ rest)) = m.length := by
  refine Nat.le_antisymm (Nat.le_of_not_lt fun hlt => ?_) (le_mantissaLength hm _)
  obtain ⟨c, e, rfl⟩ := List.exists_cons_of_ne_nil hne
  obtain ⟨k, hk⟩ := Nat.exists_eq_add_of_lt hlt
  have hmem : c ∈ (m ++ (c :: e ++ rest)).take (mantissaLength (m ++ (c :: e ++ rest))) := by
    rw [hk, Nat.add_assoc, List.take_length_add_append, List.cons_append, List.take_succ_cons]
    exact List.mem_append_right _ List.mem_cons_self
  have hc := isDigitOrPoint_of_mem_mantissa (take_mantissaLength_mem h) c hmem
  obtain rfl | rfl := head?_exponent he c rfl <;> cases hc

/-- **What is taken where a number starts is the longest number there.** -/
theorem isLongest_take {cs : Text} (h : startsNumber cs = true) :
    IsLongest (cs.take (length cs)) cs := by
  refine ⟨take_length_mem h, List.take_prefix _ _, ?_⟩
  rintro v ⟨m, hm, e, he, rfl⟩ ⟨rest, rfl⟩
  rw [List.append_assoc] at h ⊢
  rw [List.length_take_of_le (length_le _), length, List.length_append]
  by_cases hne : e = []
  · rw [hne, List.length_nil]
    exact Nat.le_trans (le_mantissaLength hm _) (Nat.le_add_right _ _)
  · rw [mantissaLength_eq_of_exponent hm he hne h, List.drop_left]
    exact Nat.add_le_add_left (le_exponentLength he rest) _

/-- The token where a number with an optional sign starts: the sign and the longest number behind
it, and if a point follows, all digits and points that follow. -/
inductive Munches (sign body : Text) (t : Token) : Prop
  | number {w rest : Text} (split : body = w ++ rest) (longest : IsLongest w body)
      (next : rest.head? ≠ some '.') (kind : t.kind = .number) (text : t.text = sign ++ w)
  | invalid {w rest : Text} (split : body = w ++ rest) (longest : IsLongest w body)
      (next : rest.head? = some '.') (kind : t.kind = .invalidNumber)
      (text : t.text = sign ++ (w ++ rest.takeWhile isDigitOrPoint))

end Number

namespace Lexeme

theorem keyword?_of_not_isAlpha (mode : Mode) {c : Char} (hc : c.isAlpha = false) (cs : Text) :
    keyword? mode (c :: cs) = none := by
  cases mode with
  | inline => rfl
  | statementStart =>
    refine Option.eq_none_iff_forall_ne_some.2 fun t ht => ?_
    obtain ⟨d, rest, he, hd⟩ := exists_letter_of_keyword ht
    obtain ⟨rfl, -⟩ := List.cons.inj he
    rw [hc] at hd
    cases hd

theorem scan_of_rule? {mode : Mode} {c : Char} {cs : Text} {t : Kind × Nat}
    (hc : c.isAlpha = false) (h : rule? (c :: cs) = some t)
    (hs : startsToken (c :: cs) = true) : scan mode (c :: cs) = t := by
  rw [scan, keyword?_of_not_isAlpha mode hc]
  simp only
  rw [if_pos hs, h, Option.getD_some]

/-- In either mode a sign in front of a number belongs to it. -/
theorem scan_number (mode : Mode) {sign body : Text}
    (hsign : sign = [] ∨ sign = ['+'] ∨ sign = ['-']) (h : startsNumber body = true) :
    scan mode (sign ++ body) =
      ((Number.scan body).1, sign.length + (Number.scan body).2) := by
  have hsigned : ∀ operator, signed operator body =
      ((Number.scan body).1, 1 + (Number.scan body).2) := fun _ => if_pos h
  obtain rfl | rfl | rfl := hsign
  · obtain ⟨d, rest, hd, hbody⟩ := Number.startsNumber_iff.1 h
    rw [List.nil_append, List.length_nil, Nat.zero_add]
    obtain rfl | rfl := hbody
    · have hletter : d.isAlpha = false :=
        (Bool.or_eq_false_iff.1 (Pattern.isIdentStart_digit hd)).1
      exact scan_of_rule? hletter (rule?_number h).2 (startsToken_number h)
    · exact scan_of_rule? rfl (rule?_number h).2 (startsToken_number h)
  · exact scan_of_rule? rfl (congrArg some (hsigned .plus)) rfl
  · exact scan_of_rule? rfl (congrArg some (hsigned .minus)) rfl

end Lexeme

/-- **A number with an optional sign is read to the end of the longest number**, and beyond it only
where a point spoils it. -/
theorem Reader.munches_next {r : Reader} (mode : Mode) {sign body : Text}
    (hsign : sign = [] ∨ sign = ['+'] ∨ sign = ['-']) (h : startsNumber body = true)
    (hr : r.rest = sign ++ body) : Number.Munches sign body (r.next mode).1 := by
  have hne : r.rest ≠ [] := by
    rw [hr]
    rintro hnil
    rw [(List.append_eq_nil_iff.1 hnil).2] at h
    cases h
  have hy := yields_next mode hne
  have hscan := hy.scan
  rw [hr, Lexeme.scan_number mode hsign h] at hscan
  obtain ⟨hkind, hlength⟩ := Prod.mk.inj hscan
  have htext : (r.next mode).1.text = sign ++ body.take (Number.scan body).2 := by
    have hcut := congrArg (List.take (r.next mode).1.text.length) (hr.symm.trans hy.rest)
    rw [List.take_left, ← hlength, List.take_length_add_append] at hcut
    exact hcut.symm
  have hsplit := (List.take_append_drop (Number.length body) body).symm
  rw [Number.scan] at hkind htext
  by_cases hpoint : (body.drop (Number.length body)).head? = some '.'
  · simp only [if_pos hpoint] at hkind htext
    refine .invalid hsplit (Number.isLongest_take h) hpoint hkind.symm ?_
    rw [htext, List.take_add, ← List.prefix_iff_eq_take.1 (List.takeWhile_prefix _)]
  · simp only [if_neg hpoint] at hkind htext
    exact .number hsplit (Number.isLongest_take h) hpoint hkind.symm htext

end LpFormat
