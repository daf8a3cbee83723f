import LpFormat.Proofs.Parsing.Spec

/-!
# Operators of one level

Expressions are read by precedence climbing, which nests them where an operator binds tighter than the
one before it. In the table of operators none does, so what is behind an operator is a single term and
nothing is nested.

* `Operator.not_bindsTighter`: the operators of the table; `Rule.climb_eq`: climbing leaves a term as
  it is;
* `Rule.flatOperand`, with `Rule.junkStep` and `Rule.operandTail`: the right operand as a single term;
  **`Rule.operand_eq`**, `Rule.expressionStep_eq`: the rules are those that do not climb.
-/

namespace LpFormat

/-- **No operator binds tighter than another**: they share one level, which groups to the left. -/
theorem Operator.not_bindsTighter {next op : Operator} (hnext : next ∈ Grammar.operators)
    (hop : op ∈ Grammar.operators) : next.bindsTighter op = false := by
  have h : ∀ next ∈ Grammar.operators, ∀ op ∈ Grammar.operators, next.bindsTighter op = false := by
    decide
  exact h next hnext op hop

theorem Grammar.mem_of_operator? {k : Kind} {op : Operator} (h : operator? k = some op) :
    op ∈ operators := List.mem_of_find?_eq_some h

namespace Rule

/-- What was read behind an operator stays the right operand. -/
theorem climb_eq {op : Operator} (hop : op ∈ Grammar.operators) (lhs : Outcome Unit) :
    climb op lhs = lhs := by
  rw [climb]
  split
  · rfl
  · rename_i next hnext
    rw [if_neg]
    rw [Operator.not_bindsTighter (Grammar.mem_of_operator? hnext) hop]
    exact Bool.false_ne_true

/-- Trivia are taken once. -/
theorem takeTrivia_twice : (takeTrivia >>= fun _ => takeTrivia) = takeTrivia := by
  funext i
  obtain ⟨v, us, htokens, hv, hus⟩ := i.exists_trivia
  change (⟨(), (takeTrivia i).output ++ (takeTrivia (takeTrivia i).rest).output,
    (takeTrivia (takeTrivia i).rest).rest⟩ : Outcome Unit) = _
  rw [takeTrivia_run htokens hv hus,
    takeTrivia_run (i := i.advance us) (v := []) rfl (List.forall_mem_nil _) hus, Output.trivia_nil,
    Output.append_empty]
  rfl

theorem takeTrivia_then_node (kind : Kind) (body : Rule Unit) :
    (takeTrivia >>= fun _ => node kind body) = node kind body := by
  rw [node, nodeOf, ← bind_assoc, takeTrivia_twice]

/-! ## Operands without nesting -/

/-- The step that skips junk in front of an operand. -/
def junkStep : Rule Bool := do
  if ← atSet Grammar.junk then
    skipToken .term
    return true
  else return false

/-- The operand itself, behind the line ends before it: junk and a term. -/
def operandTail : Rule Unit := do
  repeatWhile junkStep
  if ← atSet Grammar.termFirst then term else missing .termAfterOperator

/-- The right operand of an operator as a single term. -/
def flatOperand : Rule Unit := do
  continueLine
  operandTail

/-- **The right operand of an operator is a single term.** -/
theorem operand_eq {op : Operator} (hop : op ∈ Grammar.operators) : operand op = flatOperand := by
  have hterm : (takeTrivia >>= fun _ i => climb op (term i)) = term := by
    simp only [climb_eq hop]
    exact takeTrivia_then_node _ _
  change (continueLine >>= fun _ => repeatWhile junkStep >>= fun _ =>
    atSet Grammar.termFirst >>= fun b =>
      if b = true then takeTrivia >>= fun _ i => climb op (term i) else missing .termAfterOperator) = _
  rw [hterm]
  rfl

/-- One more piece of an expression, with operands that are single terms. -/
theorem expressionStep_eq : expressionStep = (peek 0 >>= fun t =>
    if (Grammar.operator? t.kind).isSome = true then bump >>= fun _ => flatOperand >>= fun _ => pure true
    else if isSignedLiteral t = true then term >>= fun _ => pure true
    else if Grammar.junk.contains t.kind = true then skipToken .operator >>= fun _ => pure true
    else pure false) := by
  rw [expressionStep]
  congr 1
  funext t
  cases h : Grammar.operator? t.kind with
  | none => rfl
  | some op =>
    simp only [operand_eq (Grammar.mem_of_operator? h), Option.isSome_some, if_true]

theorem expressionStep_run (i : Input) :
    expressionStep i = (if (Grammar.operator? (i.peek 0).kind).isSome = true then
      bump >>= fun _ => flatOperand >>= fun _ => pure true
    else if isSignedLiteral (i.peek 0) = true then term >>= fun _ => pure true
    else if Grammar.junk.contains (i.peek 0).kind = true then
      skipToken .operator >>= fun _ => pure true
    else pure false : Rule Bool) i := congrFun expressionStep_eq i

end Rule

end LpFormat
