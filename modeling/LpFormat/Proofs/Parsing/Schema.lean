import LpFormat.Parsing.Statement
import Mathlib

/-!
# Schema and grammar as languages

What may stand in a node, whatever the text, and what a document without faults consists of; both are
regular.

* `single`, `optional`: words of one letter, and words that may be left out;
* `Schema.children`: the kinds of the children of a node, trivia apart;
* `Production.statement`, `Production.document`: statements and documents without faults, as words of
  significant tokens.
-/

namespace LpFormat

open Computability

/-- The words of one letter that has a property. -/
def single {α : Type} (p : α → Prop) : Language α := {w | ∃ a, p a ∧ w = [a]}

/-- The words of a language and the empty word. -/
def optional {α : Type} (l : Language α) : Language α := 1 + l

section Language

variable {α : Type} {p : α → Prop} {a : α} {l m : Language α}

theorem mem_single : [a] ∈ single p ↔ p a := by
  refine ⟨?_, fun h => ⟨a, h, rfl⟩⟩
  rintro ⟨b, hb, hab⟩
  cases hab
  exact hb

theorem one_le_optional : 1 ≤ optional l := le_self_add

theorem le_optional : l ≤ optional l := le_add_self

theorem optional_mul : optional l * m = l * m + m := by
  rw [optional, add_mul, one_mul, add_comm]

theorem le_optional_mul : m ≤ optional l * m := by
  rw [optional_mul]
  exact le_add_self

theorem mul_le_optional_mul : l * m ≤ optional l * m := mul_le_mul_left le_optional m

end Language

/-! ## What may stand in a node -/

namespace Schema

/-- One child of a kind. -/
def one (k : Kind) : Language Kind := single (· = k)

/-- One child of a kind out of a set. -/
def oneOf (s : KindSet) : Language Kind := single fun k => s.contains k = true

/-- A variable; a malformed number may stand in its place. -/
def name : Language Kind := one .ident + one .invalidNumber

/-- A comparison and, unless it is missing, its constant. -/
def comparison : Language Kind := oneOf Grammar.comparisons * optional (one .constant)

/-- What was skipped at the end of a statement. -/
def skipped : Language Kind := optional (one .errorNode)

/-- Lines with statements of some kinds. -/
def lines (statements : Language Kind) : Language Kind :=
  (one .newline + one .errorNode + statements)∗

/-- The statements of a rule. -/
def statements : StatementRule → Language Kind
  | .implicit => one .objective + one .constraint
  | .objective => one .objective
  | .constraint => one .constraint
  | .bound => one .bound
  | .declaration => one .declaration
  | .sos => one .sosSet + one .sosEntry

/-- The kinds of the children of a node, trivia apart. -/
def children : Kind → Language Kind
  | .document =>
    (one .newline + one .objective + one .constraint + one .errorNode)∗ * (one .sectionNode)∗ *
      optional (one .endNode * (one .newline + one .errorNode)∗)
  | .sectionNode =>
    (one .minimizeKw + one .maximizeKw) * lines (one .objective) +
      one .subjectToKw * lines (one .constraint) +
      one .boundsKw * lines (one .bound) +
      (one .generalsKw + one .integersKw + one .binariesKw + one .semiContinuousKw) *
        lines (one .declaration) +
      one .sosKw * lines (one .sosSet + one .sosEntry)
  | .endNode => one .endKw
  | .label => one .ident * (one .colon + one .colon2)
  | .objective => optional (one .label) * optional (one .expression) * skipped
  | .constraint => optional (one .label) * optional (one .expression) * optional comparison * skipped
  | .bound =>
    name * one .freeKw * skipped + name * optional comparison * skipped +
      one .constant * optional (oneOf Grammar.comparisons * optional (name * optional comparison)) *
        skipped
  | .declaration => name * (name + one .errorNode)∗
  | .sosSet => optional (one .label) * one .sosType * one .colon2 * (one .sosEntry)∗ * skipped
  | .sosEntry => one .ident * one .colon * optional (one .constant + one .errorNode)
  | .expression =>
    one .term * ((one .plus + one .minus) * (one .newline)∗ * (one .errorNode)∗ *
      optional (one .term) + one .term + one .errorNode)∗
  | .term =>
    (one .plus + one .minus)∗ * optional (one .number + one .infinity + one .invalidNumber) *
      optional name
  | .constant =>
    (one .plus + one .minus)∗ * optional (one .number + one .infinity + one .invalidNumber)
  | .errorNode => {ks | ∀ k ∈ ks, k.isToken = true}
  | _ => 0

end Schema

/-! ## Documents without faults -/

namespace Production

/-- One token of a kind. -/
def one (k : Kind) : Language Token := single fun t => t.kind = k

/-- A sign. -/
def sign : Language Token := one .plus + one .minus

/-- A number or an infinity. -/
def literal : Language Token := one .number + one .infinity

/-- A number or an infinity whose text starts with a sign. -/
def signedLiteral : Language Token := single fun t =>
  (t.kind = .number ∨ t.kind = .infinity) ∧ (t.text.head? = some '+' ∨ t.text.head? = some '-')

/-- A comparison operator. -/
def comparison : Language Token := one .lt + one .ltEq + one .gt + one .gtEq + one .eq

/-- The word `free`. -/
def free : Language Token := single fun t => t.kind = .ident ∧
  Text.sameLetters "free".toList t.text = true

/-- The words `s1` and `s2`. -/
def sosType : Language Token := single fun t => t.kind = .ident ∧
  (Text.sameLetters "s1".toList t.text = true ∨ Text.sameLetters "s2".toList t.text = true)

def term : Language Token := sign∗ * optional literal * one .ident

def constant : Language Token := sign∗ * literal

def expression : Language Token :=
  term * (sign * (one .newline)∗ * term + signedLiteral * one .ident)∗

/-- The label of an objective or of an SOS set. -/
def label : Language Token := one .ident * one .colon

/-- The label of a constraint. -/
def anyLabel : Language Token := one .ident * (one .colon + one .colon2)

/-- An entry of an SOS set. -/
def entry : Language Token := one .ident * one .colon * constant

/-- The statements of a rule. -/
def statement : StatementRule → Language Token
  | .implicit => anyLabel + optional anyLabel * expression * optional (comparison * constant)
  | .objective => label + optional label * expression
  | .constraint => optional anyLabel * expression * comparison * constant
  | .bound =>
    one .ident * free + one .ident * comparison * constant +
      constant * comparison * one .ident * optional (comparison * constant)
  | .declaration => one .ident * (one .ident)∗
  | .sos => optional label * sosType * one .colon2 * entry∗ + entry * entry∗

/-- Statements on lines of their own, and blank lines. -/
def body (statement : Language Token) : Language Token :=
  (one .newline)∗ * optional (statement * (one .newline * (one .newline)∗ * statement)∗ *
    (one .newline)∗)

/-- A section keyword and its statements. -/
def sectionBlock : Language Token :=
  {w | ∃ s ∈ Grammar.sections, w ∈ one s.keyword * body (statement s.rule)}

/-- A document without faults. -/
def document : Language Token :=
  body (statement .implicit) * optional (one .endKw * (one .newline)∗ +
    sectionBlock * sectionBlock∗ * one .endKw * (one .newline)∗)

end Production

end LpFormat
