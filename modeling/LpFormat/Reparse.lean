import LpFormat.Edit
import LpFormat.Parse
import LpFormat.Tree.Cursor

/-!
# Parsing again after an edit

The tree for an edited text is made from the old one where that is safe. Three ways are tried:

1. *one token*: the edit stays inside an identifier, a number, whitespace or a comment, and reading
   the line again gives one token of the same kind there, with the same neighbours. Only spans
   change.
2. *one statement*: the edit stays inside a statement. The statement alone is parsed again and put
   in the place of the old one.
3. *full*: the whole text is parsed.

* `Reparse`: the result, with what was reused and which entries were written;
* `relexPrefix?`, `nextMatches`: the checks that the tokens around the edit stay as they are;
* `Parse.relexToken?`, `Parse.reparseStatement`, `Parse.reparseFully`, `Parse.reparse`;
* `Reparse.shares`: whether a node is stored in a block that old and new tree share.
-/

namespace LpFormat

/-- How an edit was answered. -/
inductive Strategy where
  | token
  | statement
  | full
deriving DecidableEq, Repr

/-- The name of a strategy. -/
def Strategy.name : Strategy → String
  | token => "Token"
  | statement => "Statement"
  | full => "Full"

/-- The answer to an edit. -/
structure Reparse where
  parse : Parse
  strategy : Strategy
  /-- How many nodes of the new tree come from the old one. -/
  reused : Nat
  /-- How many nodes of the new tree were made for this edit. -/
  reparsed : Nat
  /-- The ids of the nodes that were made or changed. -/
  written : List Nat
deriving Repr

/-! ## The tokens around an edit -/

/-- Tokens whose text can change without the grammar noticing. -/
def relexable : KindSet :=
  .ofList [.ident, .number, .infinity, .whitespace, .lineComment, .blockComment]

/-- Whether a token can change its text without being read differently. -/
def sameShape (kind : Kind) (old new : Text) : Bool :=
  match kind with
  | .ident => !Grammar.isContextual old && !Grammar.isContextual new
  | .number | .infinity => old.head?.any Number.isSign == new.head?.any Number.isSign
  | .blockComment => isClosedComment old && isClosedComment new
  | _ => true

/-- Leaves after which a token does not look ahead into what follows. -/
def endsLookahead (n : Node) : Bool := n.kind == .newline || n.kind == .blockComment

/-- The last leaf before a node that is not trivia. -/
def Cursor.prevSignificant? (c : Cursor) : Option Node :=
  c.leavesBefore.find? fun n => !n.kind.isTrivia

/-- Reads tokens again and compares them with leaves. Gives the place after them and the mode
there. -/
def relexLeaves? (reader : Reader) (mode : Mode) : List Node → Option (Reader × Mode)
  | [] => some (reader, mode)
  | leaf :: leaves =>
    let (token, reader') := reader.next mode
    if token.kind = leaf.kind.lexedAs ∧ token.span = leaf.span then
      relexLeaves? reader' (mode.next token.kind) leaves
    else none

/-- Reads a new text from the start of the line of a node, or from after the last block comment on
it, up to the node. The tokens must be the old leaves. -/
def relexPrefix? (c : Cursor) (text : Text) : Option (Reader × Mode) :=
  let before := c.leavesBefore
  let line := (before.takeWhile fun n => !endsLookahead n).reverse
  let mode :=
    match (before.dropWhile fun n => !endsLookahead n).find? fun n => !n.kind.isTrivia with
    | some n => Mode.after n.kind.lexedAs
    | none => .statementStart
  let start := (line.head?.getD c.focus).span.start
  relexLeaves? (.resume text start) mode line

/-- Whether the next token is the old leaf after a node, moved. Everything behind it is then read as
before. -/
def nextMatches (c : Cursor) (reader : Reader) (mode : Mode) (delta : Int) : Bool :=
  let token := (reader.next mode).1
  match c.nextLeaf? with
  | some leaf => token.kind == leaf.kind.lexedAs && token.span == leaf.span.shift delta
  | none => token.kind == .eof

/-! ## The three ways -/

namespace Parse

/-- Answers an edit that changes the text of one token. -/
def relexToken? (p : Parse) (e : Edit) (text : Text) : Option Reparse := do
  let c := p.tree.cover e.span
  let leaf := c.focus
  guard (relexable.contains leaf.kind)
  guard (!p.diagnostics.any fun d => d.span.touches leaf.span)
  let span := leaf.span.stretch e.delta
  guard (sameShape leaf.kind (p.tree.textOf leaf) (text.slice span))
  let (reader, mode) ← relexPrefix? c text
  let (token, reader) := reader.next mode
  guard (token.kind == leaf.kind && token.span == span)
  guard (nextMatches c reader (mode.next leaf.kind) e.delta)
  let root := c.splice { leaf with span } e.delta
  let tree := { p.tree with text, root }
  return {
    parse := ⟨tree, p.diagnostics.map (Diagnostic.shiftFrom leaf.span.stop e.delta), p.options⟩
    strategy := .token
    reused := tree.nodeCount - 1
    reparsed := 1
    written := leaf.id :: c.splicedIds e.delta }

/-- Whether a node is a statement that stands directly in a section or in the document. -/
def isOuterStatement (c : Cursor) : Bool :=
  c.focus.kind.isStatement &&
    c.path.head?.any fun k => k.kind == .sectionNode || k.kind == .document

/-- Whether a node begins where a statement may begin: a later entry on a line of SOS entries does
not. -/
def startsStatement (c : Cursor) : Bool :=
  match c.prevSignificant? with
  | some n => n.kind == .newline || n.kind.isSectionKeyword
  | none => true

/-- The rule for the statements beside a node. -/
def ruleAt? (c : Cursor) : Option StatementRule := do
  let parent ← c.parent?
  if parent.focus.kind = .sectionNode then
    let keyword ← parent.focus.children.head?
    return (← Grammar.section? keyword.kind).rule
  else return .implicit

/-- The statement around an edit, and the new statement in its place. -/
def statementFragment? (p : Parse) (e : Edit) (text : Text) : Option (Cursor × Fragment) := do
  let c ← (p.tree.cover e.span).ancestors.find? isOuterStatement
  guard (startsStatement c)
  let rule ← ruleAt? c
  let (_, mode) ← relexPrefix? c text
  let resumeAfter := (c.prevSignificant?.map (·.span.stop)).getD 0
  let fragment ← parseStatementAt text c.focus.span.start resumeAfter mode rule
  return (c, fragment)

/-- Whether a new statement can stand in the place of an old one: it ends where the old one ended,
begins with a token of the same kind, since an operator at the end of the line before looks at it,
and leaves what follows as it was. -/
def fitsInPlace (c : Cursor) (fragment : Fragment) (text : Text) (delta : Int) : Bool :=
  match c.focus.firstLeaf?, c.focus.lastLeaf? with
  | some first, some last =>
    let mode := Mode.after fragment.lastKind
    fragment.stop == shiftOffset c.focus.span.stop delta &&
      (fragment.output.events.findSome? Event.tokenKind?).map Kind.lexedAs ==
        some first.kind.lexedAs &&
      mode == Mode.after last.kind.lexedAs &&
      nextMatches c (.resume text fragment.stop) mode delta
  | _, _ => false

/-- Answers an edit inside a statement by a new statement that fits in the place of the old one,
unless too many entries would be dead. -/
def spliceStatement (p : Parse) (e : Edit) (text : Text) (c : Cursor) (fragment : Fragment) :
    Option Reparse × List LogEntry :=
  match Node.ofEvents p.tree.allocated c.focus.span.start fragment.output.events with
  | ([statement], allocated) =>
    let dead := p.tree.dead + c.focus.size
    if allocated * p.options.maxDeadPercent < dead * 100 then
      (none, [.compacting dead allocated])
    else
      let tree : Tree := ⟨text, c.splice statement e.delta, allocated, dead⟩
      let kept := p.diagnostics.filter fun d => !c.focus.span.contains d.span
      let moved := kept.map (Diagnostic.shiftFrom c.focus.span.stop e.delta)
      let diagnostics :=
        Diagnostic.arrange p.options.maxErrors (moved ++ fragment.output.diagnostics)
      let answer : Reparse := {
        parse := ⟨tree, diagnostics, p.options⟩
        strategy := .statement
        reused := tree.nodeCount - statement.size
        reparsed := statement.size
        written := statement.descendants.map (·.id) ++ c.splicedIds e.delta }
      (some answer, [])
  | _ => (none, [])

/-- Answers an edit inside one statement, if that can be done, and tells about the work. -/
def reparseStatement (p : Parse) (e : Edit) (text : Text) : Option Reparse × List LogEntry :=
  match p.statementFragment? e text with
  | none => (none, [])
  | some (c, fragment) =>
    let log := fragment.output.log
    if fitsInPlace c fragment text e.delta then
      let (answer, more) := p.spliceStatement e text c fragment
      (answer, log ++ more)
    else (none, log)

/-- Answers an edit by parsing the whole text. -/
def reparseFully (p : Parse) (text : Text) (reason : FullReason) : Reparse × List LogEntry :=
  let (new, log) := parseLogged text p.options
  ({ parse := new
     strategy := .full
     reused := 0
     reparsed := new.tree.nodeCount
     written := List.range new.tree.allocated }, .full reason :: log)

/-- Whether there may be more diagnostics than the options let through. -/
def capReached (p : Parse) : Bool :=
  p.options.maxErrors.any fun n => decide (n ≤ p.diagnostics.length)

/-- The answer to an edit that gives a text, and messages about the work. -/
def reparseText (p : Parse) (e : Edit) (text : Text) : Reparse × List LogEntry :=
  if !p.options.incremental then p.reparseFully text .incrementalOff
  else if p.capReached then p.reparseFully text .capReached
  else
    match p.relexToken? e text with
    | some answer => (answer, [.relexed e.span])
    | none =>
      match p.reparseStatement e text with
      | (some answer, log) => (answer, log ++ [.statementParsed e.span])
      | (none, log) =>
        let (answer, more) := p.reparseFully text .notLocal
        (answer, log ++ more)

/-- Applies an edit, with messages about the work. It fails only if the edit does not apply to the
text. -/
def reparse (p : Parse) (e : Edit) : Except EditError (Reparse × List LogEntry) :=
  (e.apply p.text).map (p.reparseText e)

/-- Applies edits one after another; the first that does not apply is the answer. -/
def reparseAll (p : Parse) (edits : List Edit) : Except EditError (Parse × List LogEntry) :=
  edits.foldlM (fun (p, log) e => do
    let (answer, more) ← p.reparse e
    return (answer.parse, log ++ more)) (p, [])

end Parse

/-! ## Shared storage -/

namespace Reparse

/-- The number of entries that are stored together. -/
def blockSize : Nat := 256

/-- The number of blocks for a number of entries. -/
def blockCount (entries : Nat) : Nat := (entries + blockSize - 1) / blockSize

/-- Whether an entry is in a block that the old tree has too and that no entry was written to. -/
def shares (old : Tree) (r : Reparse) (id : Nat) : Bool :=
  let block := id / blockSize
  decide (block < blockCount old.allocated) && decide (block < blockCount r.parse.tree.allocated) &&
    !r.written.any fun w => w / blockSize == block

/-- How many nodes of the new tree are stored in blocks shared with the old one. -/
def sharedCount (old : Tree) (r : Reparse) : Nat :=
  r.parse.tree.root.descendants.countP fun n => r.shares old n.id

end Reparse

end LpFormat
