import LpFormat.Token.Number

/-!
# Numbers of 64 bits

Values of the model are binary floating-point numbers of 64 bits, kept as a sign and the 63 bits
below it. They are only read from decimals and multiplied by signs, and both are exact rules: a
decimal goes to the nearest number, a half to the one with an even last bit, and too large a decimal
to infinity.

* `Binary64`, `Binary64.one`, `Binary64.infinity`, `Binary64.withSign`;
* `roundQuotient`: a quotient rounded to the nearest whole number, halves to even;
* `Binary64.ofQuotient`, `Binary64.ofDecimal`, `Binary64.ofText?`: from a quotient, from digits and
  an exponent, and from a written number;
* `Binary64.hex`: the bits in hexadecimal.
-/

namespace LpFormat

/-- A floating-point number of 64 bits that is not a NaN. -/
structure Binary64 where
  negative : Bool
  /-- The bits below the sign: exponent and fraction. Infinity has the greatest. -/
  magnitude : Nat
deriving DecidableEq, Repr, Inhabited

/-- The whole number nearest to a quotient; a half goes to the even neighbour. -/
def roundQuotient (num den : Nat) : Nat :=
  let q := num / den
  let r := num % den
  if 2 * r < den then q
  else if den < 2 * r then q + 1
  else if q % 2 = 0 then q
  else q + 1

namespace Binary64

/-- The bits of infinity. -/
def infinityMagnitude : Nat := 0x7ff * Nat.pow 2 52

/-- Infinity. -/
def infinity : Binary64 := ⟨false, infinityMagnitude⟩

/-- Zero. -/
def zero : Binary64 := ⟨false, 0⟩

/-- One. -/
def one : Binary64 := ⟨false, 0x3ff * Nat.pow 2 52⟩

/-- A number times one or minus one. -/
def withSign (negative : Bool) (x : Binary64) : Binary64 :=
  ⟨x.negative != negative, x.magnitude⟩

/-- The exponent of two of the greatest power of two that is at most a quotient of two positive
numbers. -/
def binaryExponent (num den : Nat) : Int :=
  let e : Int := (num.log2 : Int) - den.log2
  if den * Nat.pow 2 e.toNat ≤ num * Nat.pow 2 (-e).toNat then e else e - 1

/-- The number nearest to a positive quotient. Its last bit stands for `2 ^ q`, where `q` leaves 53
bits, or fewer for the smallest numbers. -/
def ofQuotient (num den : Nat) : Binary64 :=
  let q := max (binaryExponent num den - 52) (-1074)
  let significand := roundQuotient (num * Nat.pow 2 (-q).toNat) (den * Nat.pow 2 q.toNat)
  ⟨false, min infinityMagnitude ((q + 1074).toNat * Nat.pow 2 52 + significand)⟩

/-- The number nearest to `m * 10 ^ e`. Decimals far outside the range are settled without
computing the power. -/
def ofDecimal (m : Nat) (e : Int) : Binary64 :=
  let digits : Int := (Nat.toDigits 10 m).length
  if m = 0 ∨ e + digits < -400 then zero
  else if 400 < e + digits then infinity
  else ofQuotient (m * Nat.pow 10 e.toNat) (Nat.pow 10 (-e).toNat)

/-- The number that some digits stand for. -/
def ofDigits (ds : Text) : Nat := ds.foldl (fun n c => 10 * n + (c.toNat - '0'.toNat)) 0

/-- The exponent at the start of a text and what follows it, or zero. -/
def exponentOf (cs : Text) : Int × Text :=
  let n := Number.exponentLength cs
  let body := (cs.take n).drop 1
  let digits := ofDigits (body.drop (Number.signLength body))
  (if body.head? = some '-' then -digits else digits, cs.drop n)

/-- The value of an unsigned number: digits, a point and digits, an exponent. -/
def ofUnsigned? (cs : Text) : Option Binary64 :=
  let whole := cs.takeWhile Char.isDigit
  let rest := cs.dropWhile Char.isDigit
  let (fraction, rest) :=
    match rest with
    | '.' :: rest => (rest.takeWhile Char.isDigit, rest.dropWhile Char.isDigit)
    | _ => ([], rest)
  let (exponent, rest) := exponentOf rest
  if rest = [] ∧ whole ++ fraction ≠ [] then
    some (ofDecimal (ofDigits (whole ++ fraction)) (exponent - fraction.length))
  else none

/-- The value of a written number with an optional sign. -/
def ofText? (cs : Text) : Option Binary64 :=
  (ofUnsigned? (cs.drop (Number.signLength cs))).map (withSign (cs.head? == some '-'))

/-- All 64 bits as one number. -/
def bits (x : Binary64) : Nat := (if x.negative then Nat.pow 2 63 else 0) + x.magnitude

/-- The bits in sixteen hexadecimal digits. -/
def hex (x : Binary64) : String :=
  let ds := Nat.toDigits 16 x.bits
  String.ofList (List.replicate (16 - ds.length) '0' ++ ds)

end Binary64

end LpFormat
