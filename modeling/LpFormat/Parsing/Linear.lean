import LpFormat.Parsing.Monad

/-!
# Labels, terms, constants and linear expressions

    label      = IDENT (":" | "::")
    term       = ("+" | "-")* (NUMBER | INFINITY)? IDENT
    constant   = ("+" | "-")* (NUMBER | INFINITY)
    expression = term (("+" | "-") term | signed term)*

Operators are read by precedence climbing. As both are of one left-associative level, an expression is
one flat node in which terms and operators alternate. A number with a sign of its own starts a new term
without an operator, and an operator at the end of a line continues the expression on the next line.
-/

namespace LpFormat.Rule

/-- Takes a malformed number and reports it. -/
def invalidNumber : Rule Unit := do
  let t ← peek 0
  report (.invalidNumber t.text) t.span
  bump

/-- A variable. A malformed number is taken in its place and reported. -/
def variableName : Rule Unit := do
  if (← current) = .invalidNumber then invalidNumber else bump

/-- An identifier with one of some separators after it, if they are next. -/
def label (separators : KindSet) : Rule Unit := do
  if (← current) = .ident ∧ separators.contains (← peek 1).kind then
    node .label do
      bump
      bump
  else return ()

/-- Signs, an optional number, and a variable. -/
def term : Rule Unit :=
  node .term do
    bumpWhile Grammar.signs
    if ← atSet Grammar.literals then bump
    else if (← current) = .invalidNumber ∧ Grammar.variableFirst.contains (← peek 1).kind then
      invalidNumber
    if ← atSet Grammar.variableFirst then variableName else missing .variableUse

/-- Signs and a number. -/
def constant : Rule Unit := do
  if ← atSet Grammar.constantFirst then
    node .constant do
      bumpWhile Grammar.signs
      if ← atSet Grammar.literals then bump
      else if (← current) = .invalidNumber then invalidNumber
      else missing .number
  else recover .number

/-- The line ends ahead, if a term or junk follows them: the expression goes on there. -/
def continueLine : Rule Unit := fun i =>
  let blank := Input.newlineRun i.tokens
  let next := (i.peek blank).kind
  if 0 < blank ∧ (Grammar.termFirst.contains next ∨ Grammar.junk.contains next) then
    bumpTimes blank i
  else ⟨(), {}, i⟩

/-- What stands to the right of an operator that was just taken: a term, and what `more` makes of it. -/
def operandThen (more : Outcome Unit → Outcome Unit) : Rule Unit := do
  continueLine
  repeatWhile do
    if ← atSet Grammar.junk then
      skipToken .term
      return true
    else return false
  if ← atSet Grammar.termFirst then
    takeTrivia
    fun i => more (term i)
  else missing .termAfterOperator

/-- Wraps what was read and what was read after it in a node. -/
def precede (kind : Kind) (lhs more : Outcome Unit) : Outcome Unit :=
  let output := lhs.output ++ more.output
  ⟨(), { output with events := .start kind :: (output.events ++ [.finish]) }, more.rest⟩

/-- Goes on behind the right operand of an operator: as long as operators follow that bind tighter, what
was read is their left operand. -/
def climb (op : Operator) (lhs : Outcome Unit) : Outcome Unit :=
  match Grammar.operator? (lhs.rest.peek 0).kind with
  | none => lhs
  | some next =>
    if next.bindsTighter op then
      let operand := operandThen fun r =>
        if _h : r.rest.tokens.length < lhs.rest.tokens.length then climb next r else r
      let whole := precede .expression lhs ((do bump; operand) lhs.rest)
      if _h : whole.rest.tokens.length < lhs.rest.tokens.length then climb op whole else whole
    else lhs
termination_by lhs.rest.tokens.length

/-- The right operand of an operator that was just taken. -/
def operand (op : Operator) : Rule Unit := operandThen (climb op)

/-- Whether a token is a number that brings its own sign. -/
def isSignedLiteral (t : Token) : Bool :=
  Grammar.literals.contains t.kind && t.text.head?.any Number.isSign

/-- One more piece of an expression, if there is one. -/
def expressionStep : Rule Bool := do
  let t ← peek 0
  match Grammar.operator? t.kind with
  | some op =>
    bump
    operand op
    return true
  | none =>
    if isSignedLiteral t then
      term
      return true
    else if Grammar.junk.contains t.kind then
      skipToken .operator
      return true
    else return false

/-- A linear expression, if one starts here. -/
def expression : Rule Bool := do
  if ← atSet Grammar.termFirst then
    node .expression do
      term
      repeatWhile expressionStep
    return true
  else return false

/-- A comparison and the constant to its right. -/
def comparisonTail : Rule Unit := do
  if ← atSet Grammar.comparisons then
    bump
    constant
  else recover .comparison

end LpFormat.Rule
