import LpFormat.Binary64
import LpFormat.Grammar
import LpFormat.Tree

/-!
# Values of constants, terms and expressions

* `Tree.literal?`, `Tree.isNegated`: the number of a term or constant, and its signs;
* `Tree.constantValue?`, `Tree.coefficient?`, `Tree.termVariable?`;
* `Term`, `LinearTerm`, `Expression`; `Tree.linearTermsFrom`, `Tree.linearTerms`: the terms of an
  expression with the operators between them folded into the coefficients.
-/

namespace LpFormat

/-- A coefficient, if it can be read, and a variable, if there is one. -/
structure Term where
  coefficient : Option Binary64
  name : Option Text
deriving DecidableEq, Repr

/-- A coefficient, if it can be read, of a variable. -/
structure LinearTerm where
  coefficient : Option Binary64
  name : Text
deriving DecidableEq, Repr

/-- A linear expression: its text, its terms as written, and its terms with operators folded in. -/
structure Expression where
  text : Text
  terms : List Term
  linear : List LinearTerm
deriving DecidableEq, Repr

/-- Whether a node names a variable. -/
def Node.isVariable (n : Node) : Bool := Grammar.variableFirst.contains n.kind

namespace Tree

/-- The value of a number or infinity with its own sign. -/
def literalValue? (t : Tree) (n : Node) : Option Binary64 :=
  match n.kind with
  | .number => Binary64.ofText? (t.textOf n)
  | .infinity => some (Binary64.infinity.withSign ((t.textOf n).head? == some '-'))
  | _ => none

/-- The literal among some children of a term or constant: absent, present without a value, or
present with one. The last number counts; a malformed one counts only before any other. -/
def literalAmong (t : Tree) : Option (Option Binary64) → List Node → Option (Option Binary64)
  | literal, [] => literal
  | literal, n :: ns =>
    if Grammar.literals.contains n.kind then t.literalAmong (some (t.literalValue? n)) ns
    else if n.kind = .invalidNumber ∧ literal = none then t.literalAmong (some none) ns
    else t.literalAmong literal ns

/-- The literal of a term or constant. -/
def literal (t : Tree) (n : Node) : Option (Option Binary64) := t.literalAmong none n.children

/-- Whether the signs in front of a term or constant amount to a minus. -/
def isNegated (n : Node) : Bool := n.children.countP (·.kind == .minus) % 2 == 1

/-- The value of a constant. -/
def constantValue? (t : Tree) (n : Node) : Option Binary64 :=
  (t.literal n).join.map (Binary64.withSign (isNegated n))

/-- The coefficient of a term: its signs times its number, or times one if it has none. -/
def coefficient? (t : Tree) (n : Node) : Option Binary64 :=
  match t.literal n with
  | none => some (Binary64.one.withSign (isNegated n))
  | some value => value.map (Binary64.withSign (isNegated n))

/-- The variable of a term: the last child that can name one. -/
def termVariable? (t : Tree) (n : Node) : Option Text :=
  (n.children.filter Node.isVariable).getLast?.map t.textOf

mutual

/-- The terms of an expression with the operators folded into the coefficients, where `sign` says that
a minus stands in front of the expression. -/
def linearTermsFrom (t : Tree) (sign : Bool) : Node → List LinearTerm
  | ⟨_, _, _, children⟩ => t.linearTermsAmong sign false children

/-- Terms among some children of an expression, where `op` says that the last operator since the term
before is a minus. Terms without a variable are left out. The operator in front of an expression
among the children counts for all its terms. -/
def linearTermsAmong (t : Tree) (sign op : Bool) : List Node → List LinearTerm
  | [] => []
  | n :: ns =>
    match n.kind with
    | .plus => t.linearTermsAmong sign false ns
    | .minus => t.linearTermsAmong sign true ns
    | .term =>
      match t.termVariable? n with
      | some name =>
        ⟨(t.coefficient? n).map fun c => (c.withSign sign).withSign op, name⟩ ::
          t.linearTermsAmong sign false ns
      | none => t.linearTermsAmong sign false ns
    | .expression => t.linearTermsFrom (sign ^^ op) n ++ t.linearTermsAmong sign false ns
    | _ => t.linearTermsAmong sign op ns

end

/-- The terms of an expression with the operators folded into the coefficients. -/
def linearTerms (t : Tree) (n : Node) : List LinearTerm := t.linearTermsFrom false n

/-- An expression node read. -/
def expression (t : Tree) (n : Node) : Expression where
  text := t.textOf n
  terms := (n.descendants.filter (·.kind == .term)).map fun m => ⟨t.coefficient? m, t.termVariable? m⟩
  linear := t.linearTerms n

end Tree

end LpFormat
