import LpFormat.Log
import LpFormat.Options
import LpFormat.Parsing.Document
import LpFormat.Tree.Build

/-!
# Parsing a text

* `Parse`: a tree with its diagnostics and the options that made it; `Parse.same` compares two;
* `parseLogged`, `parse`: a whole document;
* `Fragment`, `parseStatementAt`: one statement out of a larger text.
-/

namespace LpFormat

/-- The result of parsing. -/
structure Parse where
  tree : Tree
  diagnostics : List Diagnostic
  options : Options
deriving Repr, Inhabited

namespace Parse

/-- The text that was parsed. -/
def text (p : Parse) : Text := p.tree.text

/-- Whether two results have equal trees, diagnostics and options. -/
def same (a b : Parse) : Bool :=
  a.tree.same b.tree && a.diagnostics == b.diagnostics && a.options == b.options

end Parse

/-- What the places where statements were given up are logged as. -/
def Output.log (o : Output) : List LogEntry := o.resyncs.map fun r => .resync r.span r.expected

/-- Parses a document and tells about the work. -/
def parseLogged (text : Text) (options : Options) : Parse × List LogEntry :=
  let output := (Rule.document (Input.ofText text 0 0 .statementStart)).output
  (⟨Tree.ofEvents text output.events, Diagnostic.arrange options.maxErrors output.diagnostics,
    options⟩, output.log)

/-- Parses a document. This never fails: whatever is wrong is among the diagnostics, and every
character of the text is in the tree. -/
def parse (text : Text) (options : Options) : Parse := (parseLogged text options).1

/-- A statement parsed out of a larger text. -/
structure Fragment where
  output : Output
  /-- The end of the last token taken. -/
  stop : Nat
  /-- The kind, as lexed, of the last token taken. -/
  lastKind : Kind

/-- Parses one statement that starts exactly at an offset; pieces missing at its very start are
reported at `resumeAfter`. There is none if the next token starts elsewhere or ends a statement. -/
def parseStatementAt (text : Text) (offset resumeAfter : Nat) (mode : Mode)
    (rule : StatementRule) : Option Fragment :=
  let input := Input.ofText text offset resumeAfter mode
  let first := input.peek 0
  if Grammar.statementEnd.contains first.kind || first.span.start != offset then none
  else
    let r := Rule.statement rule input
    r.rest.lastKind.map fun kind => ⟨r.output, r.rest.takenEnd, kind⟩

end LpFormat
