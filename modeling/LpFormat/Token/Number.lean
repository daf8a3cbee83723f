import LpFormat.Token
import LpFormat.Token.Chars

/-!
# Numbers in a text

A number is digits, a point and digits, with at least one digit before the point or right after
it, and an exponent if digits follow its letter and sign. A second point spoils the whole run of
digits and points.

* `Number.mantissaLength`, `Number.exponentLength`, `Number.length`: the longest number at the
  start of a text;
* `Number.scan`: its kind and length, where a spoilt number is `Kind.invalidNumber`.
-/

namespace LpFormat.Number

/-- The number of digits at the start of a text. -/
def digitsLength (cs : Text) : Nat := (cs.takeWhile Char.isDigit).length

/-- The length of digits, optionally followed by a point and more digits. -/
def mantissaLength (cs : Text) : Nat :=
  let whole := digitsLength cs
  match cs.drop whole with
  | '.' :: rest => whole + 1 + digitsLength rest
  | _ => whole

/-- Whether a character is a plus or a minus. -/
def isSign (c : Char) : Bool := c == '+' || c == '-'

/-- The length of a sign at the start of a text: one or zero. -/
def signLength (cs : Text) : Nat := if cs.head?.any isSign then 1 else 0

/-- The length of the exponent at the start of a text, zero unless it has a digit. -/
def exponentLength : Text → Nat
  | [] => 0
  | c :: cs =>
    if c = 'e' ∨ c = 'E' then
      let sign := signLength cs
      let digits := digitsLength (cs.drop sign)
      if 0 < digits then 1 + sign + digits else 0
    else 0

/-- The length of the longest number at the start of a text that begins with one. -/
def length (cs : Text) : Nat :=
  let mantissa := mantissaLength cs
  mantissa + exponentLength (cs.drop mantissa)

/-- Digits and points. -/
def isDigitOrPoint (c : Char) : Bool := c.isDigit || c == '.'

/-- The kind and length of the number at the start of a text that begins with one. -/
def scan (cs : Text) : Kind × Nat :=
  let n := length cs
  let rest := cs.drop n
  if rest.head? = some '.' then (.invalidNumber, n + (rest.takeWhile isDigitOrPoint).length)
  else (.number, n)

theorem mantissaLength_pos {cs : Text} (h : startsNumber cs = true) : 0 < mantissaLength cs := by
  rw [mantissaLength]
  cases cs with
  | nil => simp [startsNumber] at h
  | cons c cs =>
    by_cases hc : c.isDigit = true
    · have : 0 < digitsLength (c :: cs) := by simp [digitsLength, hc]
      split <;> omega
    · have hdot : c = '.' := by
        rw [startsNumber.eq_def] at h
        grind
      subst hdot
      have : digitsLength ('.' :: cs) = 0 := by simp [digitsLength, hc]
      simp only [this, List.drop_zero]
      omega

/-- A text that begins with a number has a token of at least one character there. -/
theorem scan_pos {cs : Text} (h : startsNumber cs = true) : 0 < (scan cs).2 := by
  have : 0 < length cs := by
    have := mantissaLength_pos h
    rw [length]
    omega
  rw [scan]
  split <;> simp only <;> omega

end LpFormat.Number
