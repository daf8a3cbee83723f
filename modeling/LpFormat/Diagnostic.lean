import LpFormat.Expected
import LpFormat.Text

/-!
# Diagnostics

Parsing never fails. What is wrong with a document is reported as diagnostics beside the tree.

* `Problem`: the causes, with `Problem.kind` and `Problem.message`;
* `Diagnostic`: a problem and the span it concerns, with `Diagnostic.render`, `Diagnostic.shiftFrom`;
* `Diagnostic.arrange`: the reported order, by position and then in the order found, and the cap.
-/

namespace LpFormat

/-- What was found in place of an expected piece. -/
inductive Found where
  | endOfLine
  | endOfInput
  | word (text : Text)
deriving DecidableEq, Repr

/-- The wording of what was found. -/
def Found.text : Found → String
  | endOfLine => "end of line"
  | endOfInput => "end of input"
  | word t => "`" ++ String.ofList t ++ "`"

/-- The kinds of problems. -/
inductive ProblemKind where
  | lexError
  | unexpectedToken
  | missingToken
  | unterminatedSection
  | invalidNumber
deriving DecidableEq, Repr

/-- The name of a kind of problem. -/
def ProblemKind.name : ProblemKind → String
  | lexError => "LexError"
  | unexpectedToken => "UnexpectedToken"
  | missingToken => "MissingToken"
  | unterminatedSection => "UnterminatedSection"
  | invalidNumber => "InvalidNumber"

/-- What can be wrong with a document. -/
inductive Problem where
  /-- A block comment runs to the end of the text. -/
  | unclosedComment
  /-- A token does not fit where it stands. -/
  | unexpected (expected : Expected) (found : Found)
  /-- A piece is absent; the span is empty. -/
  | missing (expected : Expected)
  /-- A section is open at the end of the text; the span is its keyword. -/
  | unterminatedSection (name : String)
  /-- A number with more than one decimal point. -/
  | invalidNumber (text : Text)
deriving DecidableEq, Repr

namespace Problem

/-- The kind of a problem. -/
def kind : Problem → ProblemKind
  | unclosedComment => .lexError
  | unexpected _ _ => .unexpectedToken
  | missing _ => .missingToken
  | unterminatedSection _ => .unterminatedSection
  | invalidNumber _ => .invalidNumber

/-- The wording of a problem. -/
def message : Problem → String
  | unclosedComment => "block comment is not closed by `*\\`"
  | unexpected e f => "expected " ++ e.text ++ ", found " ++ f.text
  | missing e => "expected " ++ e.text
  | unterminatedSection name => name ++ " section is not closed by `End`"
  | invalidNumber t => "`" ++ String.ofList t ++ "` is not a valid number"

end Problem

/-- A problem and the place it concerns. -/
structure Diagnostic where
  problem : Problem
  span : Span
deriving DecidableEq, Repr

namespace Diagnostic

/-- The message with its span. -/
def render (d : Diagnostic) : String := d.problem.message ++ " at " ++ d.span.render

/-- Moves a diagnostic that starts at or after an offset. -/
def shiftFrom (offset : Nat) (delta : Int) (d : Diagnostic) : Diagnostic :=
  if offset ≤ d.span.start then { d with span := d.span.shift delta } else d

/-- The order by start and then by end. -/
def notAfter (a b : Diagnostic) : Bool :=
  decide (a.span.start < b.span.start) ||
    (a.span.start == b.span.start && decide (a.span.stop ≤ b.span.stop))

/-- Diagnostics in reported order, of which at most `cap` are kept. Diagnostics of one span stay in
the order in which they were found. -/
def arrange (cap : Option Nat) (ds : List Diagnostic) : List Diagnostic :=
  let sorted := ds.mergeSort notAfter
  match cap with
  | some n => sorted.take n
  | none => sorted

end Diagnostic

end LpFormat
