import LpFormat.Grammar
import LpFormat.Token

/-!
# Kinds and sets of kinds

How the classes of kinds and the sets of the grammar lie to each other. There are finitely many
kinds, so a statement about all of them is decided by testing each; this is done here once for every
fact that later proofs use.

* `Kind.isToken_of_isTrivia` and others: classes of kinds;
* `Kind.isTrivia_lexedAs` and others: what is kept when the grammar renames a token;
* `Kind.isLexed`, `Kind.isInner`, `Kind.isInline`: kinds that the reader gives, and kinds that may
  occur inside one line;
* `Grammar.contains_statementEnd` and others: the members of the sets of the grammar;
* `Mode.inline_next`, `Mode.next_of_isSectionKeyword`, `Mode.after_of_statementEnd`: the mode behind
  tokens of some kinds.
-/

namespace LpFormat

namespace Kind

instance {P : Kind → Prop} [DecidablePred P] : Decidable (∀ k, P k) :=
  decidable_of_iff (∀ k ∈ all, P k) ⟨fun h k => h k k.mem_all, fun h k _ => h k⟩

/-! ## Classes -/

theorem isToken_of_isTrivia : ∀ {k : Kind}, k.isTrivia = true → k.isToken = true := by decide

theorem isToken_of_isSectionKeyword : ∀ {k : Kind}, k.isSectionKeyword = true → k.isToken = true := by
  decide

theorem isToken_of_isComparison : ∀ {k : Kind}, k.isComparison = true → k.isToken = true := by decide

theorem isComparison_iff : ∀ {k : Kind}, k.isComparison = true ↔
    k = .lt ∨ k = .ltEq ∨ k = .gt ∨ k = .gtEq ∨ k = .eq := by decide

theorem isNode_of_isStatement : ∀ {k : Kind}, k.isStatement = true → k.isNode = true := by decide

theorem not_isStatement_of_isToken : ∀ {k : Kind}, k.isToken = true → k.isStatement = false := by
  decide

theorem not_isTrivia_of_isNode : ∀ {k : Kind}, k.isNode = true → k.isTrivia = false := by decide

theorem not_isTrivia_of_isSectionKeyword :
    ∀ {k : Kind}, k.isSectionKeyword = true → k.isTrivia = false := by decide

/-! ## Renamed tokens -/

theorem isTrivia_lexedAs : ∀ k : Kind, k.lexedAs.isTrivia = k.isTrivia := by decide

theorem beq_lexedAs : ∀ {k j : Kind}, (j == .ident || j.lexedAs != j) = false →
    (k.lexedAs == j) = (k == j) := by decide

theorem lexedAs_of_isComparison : ∀ {k : Kind}, k.isComparison = true → k.lexedAs = k := by decide

/-! ## Kinds that the reader gives -/

/-- The kinds of tokens before the grammar renames any. -/
def isLexed (k : Kind) : Bool := k.isToken && k != .eof && k.lexedAs == k

/-- The kinds of tokens that neither end a line nor are comments. -/
def isInner (k : Kind) : Bool :=
  k.isLexed && k != .newline && k != .lineComment && k != .blockComment

/-- The kinds that may occur inside one line. -/
def isInline (k : Kind) : Bool :=
  !Grammar.statementEnd.contains k && k != .document && k != .sectionNode

theorem isLexed_of_isInner : ∀ {k : Kind}, k.isInner = true → k.isLexed = true := by decide

theorem isToken_of_isLexed : ∀ {k : Kind}, k.isLexed = true → k.isToken = true := by decide

theorem lexedAs_of_isLexed : ∀ {k : Kind}, k.isLexed = true → k.lexedAs = k := by decide

theorem isInline_of_isLexed : ∀ {k : Kind}, k.isLexed = true →
    Grammar.statementEnd.contains k = false → k.isInline = true := by decide

theorem isInline_of_isTrivia : ∀ {k : Kind}, k.isTrivia = true → k.isInline = true := by decide

theorem not_statementEnd_of_isInline : ∀ {k : Kind}, k.isInline = true →
    Grammar.statementEnd.contains k = false := by decide

theorem not_isSectionKeyword_of_isInline : ∀ {k : Kind}, k.isInline = true →
    k.isSectionKeyword = false := by decide

end Kind

theorem KindSet.contains_singleton {j k : Kind} : (KindSet.ofList [j]).contains k = true ↔ k = j := by
  rw [contains_ofList, List.contains_iff_mem, List.mem_singleton]

namespace Grammar

/-! ## Members of the sets -/

theorem contains_statementEnd : ∀ {k : Kind}, statementEnd.contains k = true ↔
    k = .newline ∨ k = .eof ∨ k.isSectionKeyword = true := by decide

theorem statementEnd_lexedAs :
    ∀ {k : Kind}, statementEnd.contains k.lexedAs = statementEnd.contains k := by decide

theorem contains_signs : ∀ {k : Kind}, signs.contains k = true ↔ k = .plus ∨ k = .minus := by decide

theorem contains_literals : ∀ {k : Kind}, literals.contains k = true ↔ k = .number ∨ k = .infinity := by
  decide

theorem not_isTrivia_of_literals : ∀ {k : Kind}, literals.contains k = true → k.isTrivia = false := by
  decide

theorem not_signs_of_literals : ∀ {k : Kind}, literals.contains k = true → ¬ signs.contains k = true := by
  decide

theorem not_literals_of_statementEnd : ∀ {k : Kind}, statementEnd.contains k = true →
    literals.contains k = false := by decide

theorem contains_comparisons : ∀ {k : Kind}, comparisons.contains k = k.isComparison := by decide

theorem contains_variableFirst : ∀ {k : Kind}, variableFirst.contains k = true ↔
    k = .ident ∨ k = .invalidNumber := by decide

theorem contains_constantFirst : ∀ {k : Kind}, constantFirst.contains k = true ↔
    signs.contains k = true ∨ literals.contains k = true ∨ k = .invalidNumber := by decide

theorem contains_termFirst : ∀ {k : Kind}, termFirst.contains k = true ↔
    signs.contains k = true ∨ literals.contains k = true ∨ variableFirst.contains k = true := by decide

theorem constantFirst_of_termFirst : ∀ {k : Kind}, termFirst.contains k = true →
    ¬ variableFirst.contains k = true → constantFirst.contains k = true := by decide

/-- The operators are the signs. -/
theorem isSome_operator? : ∀ k : Kind, (operator? k).isSome = signs.contains k := by decide

/-! ## Sections -/

theorem isSectionKeyword_of_section? {k : Kind} {s : SectionRule} (h : section? k = some s) :
    k.isSectionKeyword = true ∧ k ≠ .endKw := by
  have hkeyword : ∀ k : Kind, (section? k).isSome = true →
      k.isSectionKeyword = true ∧ k ≠ .endKw := by decide
  exact hkeyword k (by rw [h]; rfl)

/-- A keyword that opens no section is `End`. -/
theorem eq_endKw_of_section? : ∀ {k : Kind}, k.isSectionKeyword = true → section? k = none →
    k = .endKw := by decide

end Grammar

namespace Mode

/-! ## Modes -/

theorem inline_next : ∀ {k : Kind}, (k.isTrivia = false → Grammar.statementEnd.contains k = false) →
    inline.next k = .inline := by decide

theorem next_of_isSectionKeyword : ∀ {k : Kind}, k.isSectionKeyword = true →
    statementStart.next k = .statementStart := by decide

theorem after_of_statementEnd : ∀ {k : Kind}, k.isLexed = true →
    Grammar.statementEnd.contains k = true → after k = .statementStart := by decide

end Mode

end LpFormat
