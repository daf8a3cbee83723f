/-!
# Text and byte offsets

A text is a list of characters; all offsets count the bytes of its UTF-8 form.

* `Span`: a half-open range of offsets, with `Span.contains`, `Span.touches`, `Span.shift`;
* `Text.byteSize`, `Text.isBoundary`, `Text.takeBytes`, `Text.dropBytes`, `Text.slice`;
* `Text.lineColumn`: the place of an offset when only a line feed ends a line.
-/

namespace LpFormat

/-- Moves an offset by a signed distance. -/
def shiftOffset (offset : Nat) (delta : Int) : Nat := (offset + delta).toNat

/-- The bytes from `start` up to, not including, `stop`. -/
structure Span where
  start : Nat
  stop : Nat
deriving DecidableEq, Repr, Inhabited

namespace Span

/-- The empty span at an offset. -/
def empty (offset : Nat) : Span := ⟨offset, offset⟩

/-- Both ends of the inner span lie within the outer one, ends included. -/
def contains (outer inner : Span) : Bool :=
  decide (outer.start ≤ inner.start) && decide (inner.stop ≤ outer.stop)

/-- The spans overlap or meet at an end. -/
def touches (a b : Span) : Bool := decide (a.start ≤ b.stop) && decide (b.start ≤ a.stop)

/-- Moves both ends. -/
def shift (s : Span) (delta : Int) : Span :=
  ⟨shiftOffset s.start delta, shiftOffset s.stop delta⟩

/-- Moves the end only. -/
def stretch (s : Span) (delta : Int) : Span := ⟨s.start, shiftOffset s.stop delta⟩

/-- The written form, as in `3..9`. -/
def render (s : Span) : String := s!"{s.start}..{s.stop}"

end Span

/-- A text, as its characters. -/
abbrev Text := List Char

namespace Text

/-- The number of bytes of a text. -/
def byteSize : Text → Nat
  | [] => 0
  | c :: cs => c.utf8Size + byteSize cs

@[simp]
theorem byteSize_nil : byteSize [] = 0 := rfl

@[simp]
theorem byteSize_cons (c : Char) (cs : Text) : byteSize (c :: cs) = c.utf8Size + byteSize cs := rfl

@[simp]
theorem byteSize_append (a b : Text) : byteSize (a ++ b) = byteSize a + byteSize b := by
  induction a with
  | nil => simp
  | cons c cs ih => simp [ih, Nat.add_assoc]

/-- Whether a character starts at the offset, or the text ends there. -/
def isBoundary : Text → Nat → Bool
  | _, 0 => true
  | [], _ + 1 => false
  | c :: cs, n + 1 => decide (c.utf8Size ≤ n + 1) && isBoundary cs (n + 1 - c.utf8Size)

/-- What is left after the first `n` bytes; a character cut by the offset goes with them. -/
def dropBytes : Nat → Text → Text
  | _, [] => []
  | 0, cs => cs
  | n + 1, c :: cs => dropBytes (n + 1 - c.utf8Size) cs

/-- The characters that start within the first `n` bytes. -/
def takeBytes : Nat → Text → Text
  | _, [] => []
  | 0, _ => []
  | n + 1, c :: cs => c :: takeBytes (n + 1 - c.utf8Size) cs

/-- The part of a text that a span covers. -/
def slice (text : Text) (span : Span) : Text :=
  takeBytes (span.stop - span.start) (dropBytes span.start text)

/-- Zero-based line and column of the end of a text, where only a line feed ends a line and the
column counts bytes. -/
def lineColumnFrom (line column : Nat) : Text → Nat × Nat
  | [] => (line, column)
  | c :: cs =>
    if c = '\n' then lineColumnFrom (line + 1) 0 cs
    else lineColumnFrom line (column + c.utf8Size) cs

/-- Zero-based line and column of an offset of a text. -/
def lineColumn (text : Text) (offset : Nat) : Nat × Nat :=
  lineColumnFrom 0 0 (takeBytes offset text)

/-- Equality up to the case of the letters A to Z. -/
def sameLetters (a b : Text) : Bool := a.map Char.toLower == b.map Char.toLower

end Text

end LpFormat
