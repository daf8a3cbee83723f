import LpFormat.Parsing.Statement

/-!
# Documents

    document = body section* ("End" line end*)?
    section  = keyword body
    body     = (statement | line end)*

Statements before the first section follow the implicit rule. A section that is open at the end of
the text is reported at its keyword. After `End` only blank lines and trivia may follow.
-/

namespace LpFormat.Rule

/-- Statements and blank lines up to a section keyword or the end of input. -/
def body (rule : StatementRule) : Rule Unit :=
  repeatWhile do
    let kind ← current
    if kind = .eof ∨ kind.isSectionKeyword then return false
    else if kind = .newline then
      bump
      return true
    else
      statement rule
      return true

/-- A section: its keyword and its body. -/
def sectionBlock (s : SectionRule) : Rule Unit :=
  node .sectionNode do
    bump
    body s.rule

/-- The sections that come next. If the text ends inside the last one, that is reported. -/
def sections : Rule Unit :=
  repeatWhile do
    let t ← peek 0
    match Grammar.section? t.kind with
    | some s =>
      sectionBlock s
      if (← current) = .eof then report (.unterminatedSection s.name) t.span
      return true
    | none => return false

/-- What follows `End`: anything but blank lines is reported. -/
def afterEnd : Rule Unit :=
  repeatWhile do
    let kind ← current
    if kind = .eof then return false
    else
      if kind = .newline then bump
      else if kind.isSectionKeyword then skipToken .endOfInput
      else recover .endOfInput
      return true

/-- The end mark and what follows it, if it comes next. -/
def endMark : Rule Unit := do
  if (← current) = .endKw then
    node .endNode bump
    afterEnd

/-- A whole document; all trivia are inside. -/
def document : Rule Unit :=
  enclose do
    body .implicit
    sections
    endMark
    takeTrivia
    return .document

end LpFormat.Rule
