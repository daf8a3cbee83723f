import LpFormat.Kind.Set
import LpFormat.Expected
import LpFormat.Token.Chars

/-!
# The grammar as tables

The spellings of the section keywords, the statements each section holds, and the sets of tokens
that the rules ask for.

* `Keyword`, `Grammar.keywords`, `Grammar.matchKeyword?`: a keyword at the start of a text;
* `StatementRule`, `SectionRule`, `Grammar.sections`, `Grammar.section?`;
* `Grammar.operators`: the binary operators, `Operator.bindsTighter`; they share one left-associative
  level;
* `Grammar.comparisons`, `Grammar.signs`, `Grammar.literals`, `Grammar.statementEnd`,
  `Grammar.junk`, `Grammar.termFirst`, `Grammar.constantFirst`, `Grammar.variableFirst`;
* `Grammar.isFree`, `Grammar.isSosType`, `Grammar.isContextual`: identifiers with a meaning in
  context.
-/

namespace LpFormat

/-- One spelling of a section keyword, word by word and in lower case. -/
structure Keyword where
  words : List String
  kind : Kind
  /-- Whether a colon after the words belongs to the keyword. -/
  allowsColon : Bool := false
deriving DecidableEq, Repr

namespace Keyword

/-- The words with single spaces between them. -/
def spelling (k : Keyword) : String := " ".intercalate k.words

/-- The length of the words at the start of a text, with a gap before each but the first. -/
def wordsLength? : List String → Text → Option Nat
  | [], _ => some 0
  | word :: words, cs =>
    let w := word.toList
    if Text.sameLetters (cs.take w.length) w then
      let rest := cs.drop w.length
      match words with
      | [] => some w.length
      | next :: more =>
        let gap := gapLength rest
        if gap = 0 then none
        else (wordsLength? (next :: more) (rest.drop gap)).map (w.length + gap + ·)
    else none

/-- The length of the keyword at the start of a text. The words must not run on into an
identifier; a colon, and the gap before it, are taken if the keyword allows one. -/
def matchLength? (k : Keyword) (cs : Text) : Option Nat :=
  match wordsLength? k.words cs with
  | none => none
  | some n =>
    let rest := cs.drop n
    if rest.head?.any isIdentContinue then none
    else
      let gap := gapLength rest
      if k.allowsColon && (rest.drop gap).head? == some ':' then some (n + gap + 1) else some n

end Keyword

/-- Which statements a place of the document holds. -/
inductive StatementRule where
  /-- Before any section. -/
  | implicit
  | objective
  | constraint
  | bound
  | declaration
  | sos
deriving DecidableEq, Repr

namespace StatementRule

/-- All statement rules. -/
def all : List StatementRule := [implicit, objective, constraint, bound, declaration, sos]

/-- The name of a statement rule. -/
def name : StatementRule → String
  | implicit => "Implicit"
  | objective => "Objective"
  | constraint => "Constraint"
  | bound => "Bound"
  | declaration => "Declaration"
  | sos => "Sos"

/-- The statement rule with a given name. -/
def ofName? (s : String) : Option StatementRule := all.find? fun r => r.name == s

end StatementRule

/-- What the body of a section holds, and the section's name in diagnostics. -/
structure SectionRule where
  keyword : Kind
  rule : StatementRule
  name : String
deriving DecidableEq, Repr

/-- How operators of one level group. -/
inductive Associativity where
  | left
  | right
deriving DecidableEq, Repr

/-- A binary operator. -/
structure Operator where
  kind : Kind
  precedence : Nat
  associativity : Associativity
deriving DecidableEq, Repr

/-- Whether an operator behind the right operand of another takes that operand for its left one. -/
def Operator.bindsTighter (next op : Operator) : Bool :=
  decide (op.precedence < next.precedence) ||
    (next.precedence == op.precedence && next.associativity == .right)

namespace Grammar

/-- The version of the keyword table. -/
def keywordVersion : Nat := 1

/-- The section keywords, longer spellings first. -/
def keywords : List Keyword :=
  [ { words := ["semi-continuous"], kind := .semiContinuousKw },
    { words := ["subject", "to"], kind := .subjectToKw, allowsColon := true },
    { words := ["such", "that"], kind := .subjectToKw, allowsColon := true },
    { words := ["minimize"], kind := .minimizeKw },
    { words := ["minimise"], kind := .minimizeKw },
    { words := ["maximize"], kind := .maximizeKw },
    { words := ["maximise"], kind := .maximizeKw },
    { words := ["binaries"], kind := .binariesKw },
    { words := ["integers"], kind := .integersKw },
    { words := ["generals"], kind := .generalsKw },
    { words := ["minimum"], kind := .minimizeKw },
    { words := ["maximum"], kind := .maximizeKw },
    { words := ["integer"], kind := .integersKw },
    { words := ["general"], kind := .generalsKw },
    { words := ["binary"], kind := .binariesKw },
    { words := ["bounds"], kind := .boundsKw },
    { words := ["bound"], kind := .boundsKw },
    { words := ["semis"], kind := .semiContinuousKw },
    { words := ["s.t."], kind := .subjectToKw, allowsColon := true },
    { words := ["semi"], kind := .semiContinuousKw },
    { words := ["min"], kind := .minimizeKw },
    { words := ["max"], kind := .maximizeKw },
    { words := ["gen"], kind := .generalsKw },
    { words := ["bin"], kind := .binariesKw },
    { words := ["sos"], kind := .sosKw },
    { words := ["end"], kind := .endKw },
    { words := ["st"], kind := .subjectToKw, allowsColon := true } ]

/-- The keyword at the start of a text, with its length: the first entry of the table that
matches. -/
def matchKeyword? (cs : Text) : Option (Kind × Nat) :=
  keywords.findSome? fun k => (k.matchLength? cs).map (k.kind, ·)

/-- The spellings of a keyword, in the order of the table. -/
def spellings (kind : Kind) : List String :=
  (keywords.filter fun k => k.kind == kind).map Keyword.spelling

/-- The sections and what they hold. `End` opens none. -/
def sections : List SectionRule :=
  [ ⟨.minimizeKw, .objective, "objective"⟩,
    ⟨.maximizeKw, .objective, "objective"⟩,
    ⟨.subjectToKw, .constraint, "constraints"⟩,
    ⟨.boundsKw, .bound, "bounds"⟩,
    ⟨.generalsKw, .declaration, "generals"⟩,
    ⟨.integersKw, .declaration, "integers"⟩,
    ⟨.binariesKw, .declaration, "binaries"⟩,
    ⟨.semiContinuousKw, .declaration, "semi-continuous"⟩,
    ⟨.sosKw, .sos, "sos"⟩ ]

/-- The section that a keyword opens. -/
def section? (keyword : Kind) : Option SectionRule := sections.find? fun s => s.keyword == keyword

/-- The binary operators. -/
def operators : List Operator := [⟨.plus, 1, .left⟩, ⟨.minus, 1, .left⟩]

/-- The binary operator that a token stands for. -/
def operator? (kind : Kind) : Option Operator := operators.find? fun o => o.kind == kind

/-- Comparison operators. -/
def comparisons : KindSet := .ofList [.lt, .ltEq, .gt, .gtEq, .eq]

/-- Signs in front of a term or a constant. -/
def signs : KindSet := .ofList [.plus, .minus]

/-- Numbers that can be a coefficient or a constant. -/
def literals : KindSet := .ofList [.number, .infinity]

/-- The section keywords and `End`. -/
def sectionKeywords : KindSet := ⟨Kind.isSectionKeyword⟩

/-- Tokens at which a statement ends. -/
def statementEnd : KindSet := (KindSet.ofList [.newline, .eof]).union sectionKeywords

/-- Tokens skipped one at a time without giving up the statement. -/
def junk : KindSet := .ofList [.errorToken, .lParen, .rParen]

/-- Tokens that can start a term. -/
def termFirst : KindSet := .ofList [.plus, .minus, .number, .infinity, .ident, .invalidNumber]

/-- Tokens that can start a constant. -/
def constantFirst : KindSet := .ofList [.plus, .minus, .number, .infinity, .invalidNumber]

/-- Tokens that can name a variable. A malformed number is taken for one and reported, so that a
slip does not derail the rest of the statement. -/
def variableFirst : KindSet := .ofList [.ident, .invalidNumber]

/-- Spellings that free a variable of its bounds. -/
def freeWords : List String := ["free"]

/-- Spellings of the types of SOS sets. -/
def sosTypes : List String := ["s1", "s2"]

/-- Whether a word frees a variable of its bounds. -/
def isFree (word : Text) : Bool := freeWords.any fun w => Text.sameLetters w.toList word

/-- Whether a word is the type of an SOS set. -/
def isSosType (word : Text) : Bool := sosTypes.any fun w => Text.sameLetters w.toList word

/-- Whether some rule gives the word a meaning besides that of a name. -/
def isContextual (word : Text) : Bool := isFree word || isSosType word

end Grammar

namespace StatementRule

/-- Tokens that may begin a statement. -/
def first : StatementRule → KindSet
  | implicit | objective | constraint | bound => Grammar.termFirst
  | declaration => Grammar.variableFirst
  | sos => .ofList [.ident]

/-- What is asked for where no statement begins. -/
def expected : StatementRule → Expected
  | implicit => .objectiveOrConstraint
  | objective => .objectiveExpression
  | constraint => .constraint
  | bound => .bound
  | declaration => .variableName
  | sos => .sosSetOrEntry

end StatementRule

/-! ## Length of a matched keyword -/

namespace Keyword

theorem wordsLength?_pos {word : String} {words : List String} {cs : Text} {n : Nat}
    (hw : word.toList ≠ []) (h : wordsLength? (word :: words) cs = some n) : 0 < n := by
  have hlen : 0 < word.toList.length := List.length_pos_iff.2 hw
  rw [wordsLength?] at h
  split at h
  · cases words with
    | nil =>
      simp only [Option.some.injEq] at h
      omega
    | cons next more =>
      simp only at h
      split at h
      · simp at h
      · obtain ⟨m, _, rfl⟩ := Option.map_eq_some_iff.1 h
        omega
  · simp at h

theorem matchLength?_pos {k : Keyword} {cs : Text} {n : Nat}
    (hk : ∀ w ∈ k.words.head?, w.toList ≠ []) (hne : k.words ≠ [])
    (h : k.matchLength? cs = some n) : 0 < n := by
  rw [matchLength?] at h
  split at h
  · simp at h
  · rename_i m hm
    have hpos : 0 < m := by
      cases hw : k.words with
      | nil => exact absurd hw hne
      | cons word words =>
        rw [hw] at hm
        exact wordsLength?_pos (hk word (by simp [hw])) hm
    simp only at h
    split at h
    · simp at h
    · split at h <;> simp only [Option.some.injEq] at h <;> omega

end Keyword

/-- A matched keyword is never empty. -/
theorem Grammar.matchKeyword?_pos {cs : Text} {kind : Kind} {n : Nat}
    (h : matchKeyword? cs = some (kind, n)) : 0 < n := by
  obtain ⟨k, hk, hm⟩ := List.exists_of_findSome?_eq_some h
  obtain ⟨m, hm, he⟩ := Option.map_eq_some_iff.1 hm
  have hwords : ∀ k ∈ keywords, k.words ≠ [] ∧ ∀ w ∈ k.words.head?, w.toList ≠ [] := by decide
  obtain ⟨hne, hhead⟩ := hwords k hk
  have := Keyword.matchLength?_pos hhead hne hm
  simp only [Prod.mk.injEq] at he
  omega

end LpFormat
