/-!
# What a diagnostic can ask for

`Expected` lists the pieces that the grammar can miss, and `Expected.text` gives their wording.
-/

namespace LpFormat

/-- A piece of a document that should have stood somewhere. -/
inductive Expected where
  | objectiveOrConstraint
  | objectiveExpression
  | constraint
  | bound
  | variableName
  | sosSetOrEntry
  | expression
  | term
  | termAfterOperator
  | operator
  | comparison
  | freeOrComparison
  | variableUse
  | number
  | endOfLine
  | endOfInput
deriving DecidableEq, Repr

/-- The wording of an expected piece. -/
def Expected.text : Expected → String
  | objectiveOrConstraint => "an objective or a constraint"
  | objectiveExpression => "an objective expression"
  | constraint => "a constraint"
  | bound => "a bound"
  | variableName => "a variable name"
  | sosSetOrEntry => "an SOS set or entry"
  | expression => "an expression"
  | term => "a term"
  | termAfterOperator => "a term after the operator"
  | operator => "an operator"
  | comparison => "a comparison operator"
  | freeOrComparison => "`free` or a comparison operator"
  | variableUse => "a variable"
  | number => "a number"
  | endOfLine => "end of line"
  | endOfInput => "end of input after `End`"

end LpFormat
