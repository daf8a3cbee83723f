import LpFormat.Kind
import LpFormat.Text

/-!
# Tokens

* `Mode`: whether section keywords are recognised, and `Mode.after`, `Mode.next`: how the mode
  follows from the tokens read so far;
* `Position`: offset, line and column while reading, with `Position.advance`;
* `Token`, `Tokens`: a token, and all tokens of a text up to the end of input.
-/

namespace LpFormat

/-- What the reader looks for at the next token. -/
inductive Mode where
  /-- Section keywords are recognised. -/
  | statementStart
  /-- The spelling of a keyword is an identifier. -/
  | inline
deriving DecidableEq, Repr

namespace Mode

/-- The name of a mode. -/
def name : Mode → String
  | statementStart => "StatementStart"
  | inline => "Inline"

/-- The mode after a significant token: a statement may start after a line end and after a section
keyword. -/
def after (kind : Kind) : Mode :=
  if kind = .newline ∨ kind.isSectionKeyword then statementStart else inline

/-- The mode after any token; trivia leave it as it is. -/
def next (mode : Mode) (kind : Kind) : Mode := if kind.isTrivia then mode else after kind

end Mode

/-- A place in a text. Lines and columns start at zero and the column counts bytes. -/
structure Position where
  offset : Nat
  line : Nat
  column : Nat
deriving DecidableEq, Repr, Inhabited

namespace Position

/-- The start of a text. -/
def zero : Position := ⟨0, 0, 0⟩

/-- Moves past some characters. A line feed, a carriage return, and the two in this order end one
line each; `afterReturn` says that a carriage return came right before. -/
def advanceFrom (afterReturn : Bool) (p : Position) : Text → Position
  | [] => p
  | c :: cs =>
    let offset := p.offset + c.utf8Size
    if c = '\n' ∧ afterReturn then advanceFrom false ⟨offset, p.line, p.column⟩ cs
    else if c = '\n' ∨ c = '\r' then advanceFrom (c == '\r') ⟨offset, p.line + 1, 0⟩ cs
    else advanceFrom false ⟨offset, p.line, p.column + c.utf8Size⟩ cs

/-- Moves past some characters, of which the first is taken to start a line end of its own. -/
def advance (p : Position) (cs : Text) : Position := advanceFrom false p cs

end Position

/-- A token with the place where it starts. -/
structure Token where
  kind : Kind
  span : Span
  line : Nat
  column : Nat
  text : Text
deriving DecidableEq, Repr, Inhabited

/-- The tokens of a text, and the empty token that stands for its end. -/
structure Tokens where
  tokens : List Token
  eof : Token
deriving DecidableEq, Repr, Inhabited

/-- All tokens, the one for the end of input last. -/
def Tokens.toList (ts : Tokens) : List Token := ts.tokens ++ [ts.eof]

end LpFormat
