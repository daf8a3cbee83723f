/-!
# Kinds of tokens and nodes

Every entry of a document tree has a `Kind`. Kinds up to `eof` are tokens, the rest are nodes.

* `Kind`, `Kind.all` (in their fixed order), `Kind.name`, `Kind.ofName?`;
* `Kind.isToken`, `Kind.isTrivia`, `Kind.isSectionKeyword`, `Kind.isComparison`;
* `TokenClass`, `Kind.tokenClass?`: the coarse classes used for highlighting;
* `Kind.lexedAs`: the kind the lexer gives a word that the grammar reads as a keyword in context.
-/

namespace LpFormat

/-- The kind of a token or of a node. -/
inductive Kind where
  | whitespace
  | newline
  | lineComment
  | blockComment
  | ident
  | number
  | infinity
  | invalidNumber
  | plus
  | minus
  | lt
  | ltEq
  | gt
  | gtEq
  | eq
  | colon
  | colon2
  | lParen
  | rParen
  | minimizeKw
  | maximizeKw
  | subjectToKw
  | boundsKw
  | generalsKw
  | integersKw
  | binariesKw
  | semiContinuousKw
  | sosKw
  | endKw
  | freeKw
  | sosType
  | errorToken
  | eof
  | document
  | sectionNode
  | label
  | objective
  | constraint
  | bound
  | declaration
  | sosSet
  | sosEntry
  | expression
  | term
  | constant
  | endNode
  | errorNode
deriving DecidableEq, Repr, Inhabited

/-- The coarse class of a token. -/
inductive TokenClass where
  | identifier
  | number
  | sectionKeyword
  | operator
  | punctuation
  | whitespace
  | comment
  | newline
  | endOfInput
  | error
deriving DecidableEq, Repr

/-- The name of a token class. -/
def TokenClass.name : TokenClass → String
  | .identifier => "Identifier"
  | .number => "Number"
  | .sectionKeyword => "SectionKeyword"
  | .operator => "Operator"
  | .punctuation => "Punctuation"
  | .whitespace => "Whitespace"
  | .comment => "Comment"
  | .newline => "Newline"
  | .endOfInput => "EndOfInput"
  | .error => "Error"

namespace Kind

/-- All kinds, tokens before nodes. -/
def all : List Kind :=
  [whitespace, newline, lineComment, blockComment, ident, number, infinity, invalidNumber, plus,
    minus, lt, ltEq, gt, gtEq, eq, colon, colon2, lParen, rParen, minimizeKw, maximizeKw,
    subjectToKw, boundsKw, generalsKw, integersKw, binariesKw, semiContinuousKw, sosKw, endKw,
    freeKw, sosType, errorToken, eof, document, sectionNode, label, objective, constraint, bound,
    declaration, sosSet, sosEntry, expression, term, constant, endNode, errorNode]

theorem mem_all (k : Kind) : k ∈ all := by cases k <;> decide

/-- The position of a kind in `all`. -/
def index (k : Kind) : Nat := all.idxOf k

/-- The stable name of a kind, as shown in listings. -/
def name : Kind → String
  | whitespace => "WHITESPACE"
  | newline => "NEWLINE"
  | lineComment => "LINE_COMMENT"
  | blockComment => "BLOCK_COMMENT"
  | ident => "IDENT"
  | number => "NUMBER"
  | infinity => "INFINITY"
  | invalidNumber => "INVALID_NUMBER"
  | plus => "PLUS"
  | minus => "MINUS"
  | lt => "LT"
  | ltEq => "LT_EQ"
  | gt => "GT"
  | gtEq => "GT_EQ"
  | eq => "EQ"
  | colon => "COLON"
  | colon2 => "COLON2"
  | lParen => "L_PAREN"
  | rParen => "R_PAREN"
  | minimizeKw => "MINIMIZE_KW"
  | maximizeKw => "MAXIMIZE_KW"
  | subjectToKw => "SUBJECT_TO_KW"
  | boundsKw => "BOUNDS_KW"
  | generalsKw => "GENERALS_KW"
  | integersKw => "INTEGERS_KW"
  | binariesKw => "BINARIES_KW"
  | semiContinuousKw => "SEMI_CONTINUOUS_KW"
  | sosKw => "SOS_KW"
  | endKw => "END_KW"
  | freeKw => "FREE_KW"
  | sosType => "SOS_TYPE"
  | errorToken => "ERROR_TOKEN"
  | eof => "EOF"
  | document => "DOCUMENT"
  | sectionNode => "SECTION"
  | label => "LABEL"
  | objective => "OBJECTIVE"
  | constraint => "CONSTRAINT"
  | bound => "BOUND"
  | declaration => "DECLARATION"
  | sosSet => "SOS_SET"
  | sosEntry => "SOS_ENTRY"
  | expression => "EXPRESSION"
  | term => "TERM"
  | constant => "CONSTANT"
  | endNode => "END"
  | errorNode => "ERROR"

/-- The kind with a given name. Names are case-sensitive. -/
def ofName? (s : String) : Option Kind := all.find? fun k => k.name == s

/-- Nodes are built by the grammar; everything else is a token. -/
def isNode : Kind → Bool
  | document | sectionNode | label | objective | constraint | bound | declaration | sosSet
  | sosEntry | expression | term | constant | endNode | errorNode => true
  | _ => false

/-- Tokens come from the lexer and are the leaves of a tree. -/
def isToken (k : Kind) : Bool := !k.isNode

/-- Trivia carry no meaning. A newline is not trivia: it ends a statement. -/
def isTrivia : Kind → Bool
  | whitespace | lineComment | blockComment => true
  | _ => false

/-- The keywords that open a section, and `End`. -/
def isSectionKeyword : Kind → Bool
  | minimizeKw | maximizeKw | subjectToKw | boundsKw | generalsKw | integersKw | binariesKw
  | semiContinuousKw | sosKw | endKw => true
  | _ => false

/-- The five comparison operators. -/
def isComparison : Kind → Bool
  | lt | ltEq | gt | gtEq | eq => true
  | _ => false

/-- The statements of a document; an entry of an SOS set counts as one. -/
def isStatement : Kind → Bool
  | objective | constraint | bound | declaration | sosSet | sosEntry => true
  | _ => false

/-- The class of a token; nodes have none. -/
def tokenClass? : Kind → Option TokenClass
  | ident | freeKw | sosType => some .identifier
  | number | infinity | invalidNumber => some .number
  | minimizeKw | maximizeKw | subjectToKw | boundsKw | generalsKw | integersKw | binariesKw
  | semiContinuousKw | sosKw | endKw => some .sectionKeyword
  | plus | minus | lt | ltEq | gt | gtEq | eq => some .operator
  | colon | colon2 | lParen | rParen => some .punctuation
  | whitespace => some .whitespace
  | lineComment | blockComment => some .comment
  | newline => some .newline
  | eof => some .endOfInput
  | errorToken => some .error
  | _ => none

/-- The lexer sees `free` and the SOS types as identifiers; the grammar renames them. -/
def lexedAs : Kind → Kind
  | freeKw | sosType => ident
  | k => k

end Kind

end LpFormat
