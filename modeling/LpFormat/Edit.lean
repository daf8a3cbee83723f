import LpFormat.Text

/-!
# Edits

An `Edit` replaces a span of a text. It does not apply to a text that ends before the span, nor
where the span cuts a character.
-/

namespace LpFormat

/-- The replacement of a span by another text. -/
structure Edit where
  span : Span
  insert : Text
deriving DecidableEq, Repr

/-- Why an edit does not apply. -/
inductive EditError where
  | outOfBounds (span : Span) (size : Nat)
  | notBoundary (offset : Nat)
deriving DecidableEq, Repr

/-- The wording of an error. -/
def EditError.message : EditError → String
  | outOfBounds span size => "edit range " ++ span.render ++ s!" is outside the text (length {size})"
  | notBoundary offset => s!"edit boundary {offset} is not on a character boundary"

namespace Edit

/-- The change in length. -/
def delta (e : Edit) : Int := e.insert.byteSize - (e.span.stop - e.span.start : Nat)

/-- Why an edit does not apply to a text, if it does not: the bounds are looked at first, then the
start, then the end. -/
def error? (e : Edit) (text : Text) : Option EditError :=
  if text.byteSize < e.span.stop then some (.outOfBounds e.span text.byteSize)
  else if !text.isBoundary e.span.start then some (.notBoundary e.span.start)
  else if !text.isBoundary e.span.stop then some (.notBoundary e.span.stop)
  else none

/-- The edited text. -/
def apply (e : Edit) (text : Text) : Except EditError Text :=
  match e.error? text with
  | some error => .error error
  | none => .ok (text.takeBytes e.span.start ++ e.insert ++ text.dropBytes e.span.stop)

end Edit

end LpFormat
