import LpFormat.Parsing.Linear

/-!
# Statements

    implicit    = label? expression? | label? expression comparison constant
    objective   = label? expression?
    constraint  = label? expression comparison constant
    bound       = IDENT "free" | IDENT comparison constant
                | constant comparison IDENT (comparison constant)?
    declaration = IDENT+
    sos         = label? ("S1" | "S2") "::" entry* | entry+
    entry       = IDENT ":" constant

Each rule stops at the end of the statement and leaves the line end to the section. `Rule.statement`
takes at least one token, whatever comes.
-/

namespace LpFormat.Rule

/-- The separator of most labels. -/
def colon : KindSet := .ofList [.colon]

/-- The separators of the label of a constraint. -/
def labelSeparators : KindSet := .ofList [.colon, .colon2]

/-- Skips what is left before the end of the statement. -/
def endOfStatement : Rule Unit := do
  if ← atStatementEnd then return () else recover .endOfLine

/-- A statement before any section: a constraint if a comparison follows, else an objective. -/
def implicit : Rule Unit :=
  nodeOf do
    label labelSeparators
    let found ← expression
    if ← atSet Grammar.comparisons then
      if found then pure () else missing .expression
      comparisonTail
      endOfStatement
      return .constraint
    else
      if found ∨ (← atStatementEnd) then pure () else recover .expression
      endOfStatement
      return .objective

/-- An objective. -/
def objective : Rule Unit :=
  node .objective do
    label colon
    if (← expression) ∨ (← atStatementEnd) then pure () else recover .objectiveExpression
    endOfStatement

/-- A constraint. -/
def constraint : Rule Unit :=
  node .constraint do
    label labelSeparators
    let found ← expression
    if found ∨ (← atSet Grammar.comparisons) then
      if found then pure () else missing .expression
      comparisonTail
    else recover .expression
    endOfStatement

/-- A bound that starts with the variable. -/
def variableBound : Rule Unit := do
  let next ← peek 1
  let free := next.kind == .ident && Grammar.isFree next.text
  variableName
  if free then bumpAs .freeKw
  else if ← atSet Grammar.comparisons then
    bump
    constant
  else recover .freeOrComparison

/-- A bound that starts with a constant. -/
def constantBound : Rule Unit := do
  constant
  if ← atSet Grammar.comparisons then
    bump
    if ← atSet Grammar.variableFirst then
      variableName
      if ← atSet Grammar.comparisons then
        bump
        constant
    else recover .variableUse
  else recover .comparison

/-- A bound. -/
def bound : Rule Unit :=
  node .bound do
    if ← atSet Grammar.variableFirst then variableBound else constantBound
    endOfStatement

/-- Names of variables. -/
def declaration : Rule Unit :=
  node .declaration do
    repeatWhile do
      let kind ← current
      if Grammar.variableFirst.contains kind then
        variableName
        return true
      else if Grammar.junk.contains kind then
        skipToken .variableName
        return true
      else return false
    endOfStatement

/-- Whether a token is the type of an SOS set. -/
def isSosType (t : Token) : Bool := t.kind == .ident && Grammar.isSosType t.text

/-- Whether an entry of an SOS set comes next. -/
def atSosEntry : Rule Bool := do
  return (← current) == .ident && (← peek 1).kind == .colon

/-- An entry of an SOS set. -/
def sosEntry : Rule Unit :=
  node .sosEntry do
    bump
    bump
    constant

/-- The entries that come next. -/
def sosEntries : Rule Unit :=
  repeatWhile do
    if ← atSosEntry then
      sosEntry
      return true
    else return false

/-- Whether an SOS set comes next: its label, its type and a double colon. -/
def atLabelledSosSet : Rule Bool := do
  return (← peek 1).kind == .colon && isSosType (← peek 2) && (← peek 3).kind == .colon2

/-- Whether an SOS set without a label comes next. -/
def atBareSosSet : Rule Bool := do
  return isSosType (← peek 0) && (← peek 1).kind == .colon2

/-- An SOS set with the entries on its line. -/
def sosSet (labelled : Bool) : Rule Unit :=
  node .sosSet do
    if labelled then label colon
    bumpAs .sosType
    bump
    sosEntries
    endOfStatement

/-- An SOS set, or a line of entries of the set before. -/
def sosItem : Rule Unit := do
  let labelled ← atLabelledSosSet
  let bare ← atBareSosSet
  if labelled ∨ bare then sosSet labelled
  else if ← atSosEntry then
    sosEntries
    endOfStatement
  else recover .sosSetOrEntry

/-- The statement that a rule names, where one can begin. -/
def statementBody : StatementRule → Rule Unit
  | .implicit => implicit
  | .objective => objective
  | .constraint => constraint
  | .bound => bound
  | .declaration => declaration
  | .sos => sosItem

/-- The number of significant tokens taken so far. -/
def taken : Rule Nat := fun i => ⟨i.taken, {}, i⟩

/-- One statement. Something is taken unless the input is at its end. -/
def statement (rule : StatementRule) : Rule Unit := do
  let before ← taken
  if ← atSet rule.first then statementBody rule else recover rule.expected
  if (← taken) = before ∧ (← current) ≠ .eof then skipToken rule.expected

end LpFormat.Rule
