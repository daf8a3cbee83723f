import LpFormat.Expected
import LpFormat.Text

/-!
# What parsing tells about its work

`LogEntry` lists the messages, with `LogEntry.level` and `LogEntry.message`.
-/

namespace LpFormat

/-- Why a text was parsed from scratch after an edit. -/
inductive FullReason where
  /-- The options ask for it. -/
  | incrementalOff
  /-- There may be more diagnostics than were kept. -/
  | capReached
  /-- Neither a token nor a statement holds the edit. -/
  | notLocal
deriving DecidableEq, Repr

/-- The wording of a reason. -/
def FullReason.text : FullReason → String
  | incrementalOff => "incremental re-parse is off"
  | capReached => "error cap reached"
  | notLocal => "edit is not local to a token or statement"

/-- A message about the work done. -/
inductive LogEntry where
  /-- The rest of a statement was skipped. -/
  | resync (span : Span) (expected : Expected)
  /-- An edit was answered by reading one token. -/
  | relexed (edited : Span)
  /-- An edit was answered by parsing one statement. -/
  | statementParsed (edited : Span)
  /-- There are too many dead entries to keep the tree. -/
  | compacting (dead allocated : Nat)
  /-- An edit was answered by parsing the whole text. -/
  | full (reason : FullReason)
deriving DecidableEq, Repr

namespace LogEntry

/-- The level of a message. -/
def level : LogEntry → String
  | resync _ _ => "TRACE"
  | _ => "DEBUG"

/-- The wording of a message. -/
def message : LogEntry → String
  | resync span expected => "resync from " ++ span.render ++ ", expected " ++ expected.text
  | relexed edited => "re-parsed " ++ edited.render ++ " by relexing one token"
  | statementParsed edited => "re-parsed " ++ edited.render ++ " by parsing one statement"
  | compacting dead allocated => s!"compacting: {dead} of {allocated} arena entries are dead"
  | full reason => "full re-parse: " ++ reason.text

/-- Level and wording. -/
def render (e : LogEntry) : String := e.level ++ " " ++ e.message

end LogEntry

end LpFormat
