import LpFormat.Diagnostic
import LpFormat.Event
import LpFormat.Token.Lexer

/-!
# Rules of the grammar as functions

A rule reads tokens from an `Input` and leaves an `Output`: the events that describe what it read,
the diagnostics it found, and the places where it gave up a statement. Rules see significant tokens
only. Trivia in front of a token go into the node that takes the token, trivia in front of a node go
into the node around it; so every node but the root starts and ends with a significant token.

* `Input`, `Input.peek`, `Output`, `Rule`: the state, and rules as a monad;
* `Rule.bump`, `Rule.bumpAs`: take a token; `Rule.node`: wrap what a rule reads in a node;
* `Rule.repeatWhile`: a loop that stops as soon as it takes no token;
* `Rule.missing`, `Rule.unexpected`, `Rule.skipToken`, `Rule.recover`: diagnostics and recovery.
-/

namespace LpFormat

/-- A place where the rest of a statement was skipped. -/
structure Resync where
  span : Span
  expected : Expected
deriving DecidableEq, Repr

/-- What is left to read, and what was read last. -/
structure Input where
  /-- Tokens ahead, trivia included. -/
  tokens : List Token
  /-- What is seen past the last token. -/
  eof : Token
  /-- How many significant tokens were taken. -/
  taken : Nat
  /-- The end of the last significant token taken. -/
  takenEnd : Nat
  /-- The kind, as lexed, of the last significant token taken. -/
  lastKind : Option Kind
deriving DecidableEq, Repr

namespace Input

/-- The input that starts at an offset of a text; nothing was taken before it, and what is missing
there is reported at `takenEnd`. -/
def ofText (text : Text) (offset takenEnd : Nat) (mode : Mode) : Input :=
  let ts := (Reader.resume text offset).tokens mode
  ⟨ts.tokens, ts.eof, 0, takenEnd, none⟩

/-- The `n`th significant token of a list, or another token if there are not so many. -/
def nth (eof : Token) : Nat → List Token → Token
  | _, [] => eof
  | n, t :: ts =>
    if t.kind.isTrivia then nth eof n ts
    else match n with
      | 0 => t
      | m + 1 => nth eof m ts

/-- The `n`th significant token ahead. -/
def peek (i : Input) (n : Nat) : Token := nth i.eof n i.tokens

/-- The number of line ends before the next other significant token. -/
def newlineRun : List Token → Nat
  | [] => 0
  | t :: ts =>
    if t.kind.isTrivia then newlineRun ts
    else if t.kind = .newline then 1 + newlineRun ts
    else 0

end Input

/-- What a rule leaves behind, each part in the order in which it arose. -/
structure Output where
  events : List Event := []
  diagnostics : List Diagnostic := []
  resyncs : List Resync := []
deriving DecidableEq, Repr

/-- What one rule leaves behind and then another. -/
def Output.append (a b : Output) : Output :=
  ⟨a.events ++ b.events, a.diagnostics ++ b.diagnostics, a.resyncs ++ b.resyncs⟩

instance : Append Output := ⟨Output.append⟩

/-- The outcome of a rule. -/
structure Outcome (α : Type) where
  value : α
  output : Output
  rest : Input

/-- A rule of the grammar. -/
def Rule (α : Type) : Type := Input → Outcome α

namespace Rule

instance : Monad Rule where
  pure a := fun i => ⟨a, {}, i⟩
  bind p f := fun i =>
    let r := p i
    let s := f r.value r.rest
    ⟨s.value, r.output ++ s.output, s.rest⟩

/-! ## Looking ahead -/

/-- The `n`th significant token ahead. -/
def peek (n : Nat) : Rule Token := fun i => ⟨i.peek n, {}, i⟩

/-- The kind of the next significant token. -/
def current : Rule Kind := do return (← peek 0).kind

/-- Whether the next significant token belongs to a set. -/
def atSet (s : KindSet) : Rule Bool := do return s.contains (← current)

/-- Whether a statement ends here. -/
def atStatementEnd : Rule Bool := atSet Grammar.statementEnd

/-! ## Taking tokens -/

/-- Leaves a diagnostic. -/
def report (problem : Problem) (span : Span) : Rule Unit :=
  fun i => ⟨(), { diagnostics := [⟨problem, span⟩] }, i⟩

/-- The diagnostic for an unclosed block comment. -/
def commentDiagnostic? (t : Token) : Option Diagnostic :=
  if t.kind = .blockComment ∧ ¬ isClosedComment t.text then some ⟨.unclosedComment, t.span⟩
  else none

/-- Moves the trivia ahead into the open node. -/
def takeTrivia : Rule Unit := fun i =>
  let trivia := i.tokens.takeWhile (·.kind.isTrivia)
  ⟨(), { events := trivia.map fun t => .token t.kind t.span,
         diagnostics := trivia.filterMap commentDiagnostic? },
    { i with tokens := i.tokens.dropWhile (·.kind.isTrivia) }⟩

/-- Moves the next token, which is significant, into the open node as a token of a given kind. -/
def takeToken (kind : Kind) : Rule Unit := fun i =>
  match i.tokens with
  | [] => ⟨(), {}, i⟩
  | t :: ts =>
    ⟨(), { events := [.token kind t.span] },
      { i with tokens := ts, taken := i.taken + 1, takenEnd := t.span.stop,
               lastKind := some t.kind }⟩

/-- Takes the next significant token as one of a given kind. Nothing happens at the end of input. -/
def bumpAs (kind : Kind) : Rule Unit := do
  if (← current) = .eof then return ()
  else
    takeTrivia
    takeToken kind

/-- Takes the next significant token. -/
def bump : Rule Unit := do bumpAs (← current)

/-- Takes a number of significant tokens. -/
def bumpTimes : Nat → Rule Unit
  | 0 => pure ()
  | n + 1 => do
    bump
    bumpTimes n

/-! ## Nodes and loops -/

/-- Wraps what a rule reads in a node, whose kind the rule decides. -/
def enclose (body : Rule Kind) : Rule Unit := fun i =>
  let r := body i
  ⟨(), { r.output with events := .start r.value :: (r.output.events ++ [.finish]) }, r.rest⟩

/-- A node whose kind the body decides; trivia in front of it stay outside. -/
def nodeOf (body : Rule Kind) : Rule Unit := do
  takeTrivia
  enclose body

/-- A node of a given kind; trivia in front of it stay outside. -/
def node (kind : Kind) (body : Rule Unit) : Rule Unit :=
  nodeOf do
    body
    return kind

/-- Repeats a step as long as it answers `true` and takes tokens. -/
def repeatWhile (step : Rule Bool) (i : Input) : Outcome Unit :=
  let r := step i
  if _h : r.value = true ∧ r.rest.tokens.length < i.tokens.length then
    let more := repeatWhile step r.rest
    ⟨(), r.output ++ more.output, more.rest⟩
  else ⟨(), r.output, r.rest⟩
termination_by i.tokens.length
decreasing_by exact _h.2

/-- Takes tokens as long as they belong to a set. -/
def bumpWhile (s : KindSet) : Rule Unit :=
  repeatWhile do
    if ← atSet s then
      bump
      return true
    else return false

/-! ## Diagnostics and recovery -/

/-- Reports a piece as absent, right after the last token taken. -/
def missing (e : Expected) : Rule Unit := fun i =>
  ⟨(), { diagnostics := [⟨.missing e, .empty i.takenEnd⟩] }, i⟩

/-- How a diagnostic refers to a token. -/
def found (t : Token) : Found :=
  match t.kind with
  | .newline => .endOfLine
  | .eof => .endOfInput
  | _ => .word t.text

/-- Reports the next token as one that does not fit. -/
def unexpected (e : Expected) : Rule Unit := do
  let t ← peek 0
  report (.unexpected e (found t)) t.span

/-- Reports the next token, and puts it alone into an error node. -/
def skipToken (e : Expected) : Rule Unit := do
  unexpected e
  node .errorNode bump

/-- Notes that the rest of a statement is skipped. -/
def noteResync (e : Expected) : Rule Unit := do
  let t ← peek 0
  fun i => ⟨(), { resyncs := [⟨t.span, e⟩] }, i⟩

/-- Gives up the rest of the statement. At its end the expected piece is only missing; otherwise
everything up to the end goes into one error node. -/
def recover (e : Expected) : Rule Unit := do
  if ← atStatementEnd then missing e
  else
    unexpected e
    noteResync e
    node .errorNode <| repeatWhile do
      if ← atStatementEnd then return false
      else
        bump
        return true

end Rule

end LpFormat
