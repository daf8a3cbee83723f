import LpFormat.Model.Bound
import LpFormat.Tree.Cursor

/-!
# The model of a document

What a tree says about the optimisation problem: sections, objectives, constraints, bounds,
declarations and special ordered sets. What is missing from a malformed document is absent.

* `Section`, `Objective`, `Constraint`, `Declaration`, `SosEntry`, `SosSet`;
* `Tree.sections`, `Tree.statements`, `Tree.objectives`, `Tree.constraints`, `Tree.bounds`,
  `Tree.declarations`, `Tree.sosSets`, `Tree.hasEnd`.
-/

namespace LpFormat

/-- A section: what it holds, its keyword as written, and its statements. -/
structure Section where
  kind : Option SectionKind
  keyword : Option Text
  statements : List Node

/-- An objective. -/
structure Objective where
  name : Option Text
  label : Option Text
  sense : Option Sense
  expression : Option Expression
deriving DecidableEq, Repr

/-- A constraint. -/
structure Constraint where
  name : Option Text
  label : Option Text
  expression : Option Expression
  comparison : Option Comparison
  rhsText : Option Text
  rhs : Option Binary64
deriving DecidableEq, Repr

/-- A line of variables and the section it is in. -/
structure Declaration where
  names : List Text
  sectionKind : Option SectionKind
deriving DecidableEq, Repr

/-- An entry of a special ordered set. -/
structure SosEntry where
  name : Option Text
  weight : Option Binary64
deriving DecidableEq, Repr

/-- A special ordered set. -/
structure SosSet where
  name : Option Text
  label : Option Text
  type : Option SosType
  entries : List SosEntry
deriving DecidableEq, Repr

/-- The keyword of a section. -/
def Node.sectionKeyword? (n : Node) : Option Node :=
  n.children.head?.filter (·.kind.isSectionKeyword)

/-- What a section holds. -/
def Node.sectionKind? (n : Node) : Option SectionKind :=
  n.sectionKeyword?.bind fun k => SectionKind.ofKeyword? k.kind

/-- What the section around a node holds, if the node stands directly in one. -/
def Cursor.sectionKind? (c : Cursor) : Option SectionKind :=
  (c.parent?.filter (·.focus.kind == .sectionNode)).bind (·.focus.sectionKind?)

/-- The entries of a special ordered set: those on its line, and those after it up to the next
set. -/
def Cursor.sosEntries (c : Cursor) : List Node :=
  c.focus.children.filter (·.kind == .sosEntry) ++
    (c.following.takeWhile (·.kind != .sosSet)).filter (·.kind == .sosEntry)

namespace Tree

/-- The text of the first child of a given kind. -/
def childText? (t : Tree) (n : Node) (kind : Kind) : Option Text :=
  (n.childOfKind? kind).map t.textOf

/-- The name in the label of a statement. -/
def labelName? (t : Tree) (n : Node) : Option Text :=
  (n.childOfKind? .label).bind fun l => t.childText? l .ident

/-- The expression of a statement. -/
def expressionOf? (t : Tree) (n : Node) : Option Expression :=
  (n.childOfKind? .expression).map t.expression

/-- The nodes of a given kind, each in its place. -/
def cursorsOf (t : Tree) (kind : Kind) : List Cursor := t.cursors.filter (·.focus.kind == kind)

/-- The sections of a document. -/
def sections (t : Tree) : List Section :=
  (t.root.children.filter (·.kind == .sectionNode)).map fun n =>
    ⟨n.sectionKind?, n.sectionKeyword?.map t.textOf, n.children.filter (·.kind.isStatement)⟩

/-- All statements of a document; entries of special ordered sets count, also inside a set. -/
def statements (t : Tree) : List Node := t.root.descendants.filter (·.kind.isStatement)

/-- The objectives of a document. -/
def objectives (t : Tree) : List Objective :=
  (t.cursorsOf .objective).map fun c =>
    ⟨t.labelName? c.focus, t.childText? c.focus .label, c.sectionKind?.bind SectionKind.sense?,
      t.expressionOf? c.focus⟩

/-- A constraint node read. -/
def constraint (t : Tree) (n : Node) : Constraint where
  name := t.labelName? n
  label := t.childText? n .label
  expression := t.expressionOf? n
  comparison := n.children.findSome? fun m => Comparison.ofKind? m.kind
  rhsText := t.childText? n .constant
  rhs := (n.childOfKind? .constant).bind t.constantValue?

/-- The constraints of a document. -/
def constraints (t : Tree) : List Constraint :=
  (t.cursorsOf .constraint).map fun c => t.constraint c.focus

/-- The bounds of a document. -/
def bounds (t : Tree) : List Bound := (t.cursorsOf .bound).map fun c => t.bound c.focus

/-- The declarations of a document. -/
def declarations (t : Tree) : List Declaration :=
  (t.cursorsOf .declaration).map fun c =>
    ⟨(c.focus.children.filter Node.isVariable).map t.textOf, c.sectionKind?⟩

/-- The type of a special ordered set. -/
def sosType? (t : Tree) (n : Node) : Option SosType :=
  (t.childText? n .sosType).bind fun word =>
    if Text.sameLetters word "s1".toList then some .s1
    else if Text.sameLetters word "s2".toList then some .s2
    else none

/-- An entry node read. -/
def sosEntry (t : Tree) (n : Node) : SosEntry :=
  ⟨t.childText? n .ident, (n.childOfKind? .constant).bind t.constantValue?⟩

/-- The special ordered sets of a document. -/
def sosSets (t : Tree) : List SosSet :=
  (t.cursorsOf .sosSet).map fun c =>
    ⟨t.labelName? c.focus, t.childText? c.focus .label, t.sosType? c.focus,
      c.sosEntries.map t.sosEntry⟩

/-- Whether a document has an end mark. -/
def hasEnd (t : Tree) : Bool := (t.root.childOfKind? .endNode).isSome

end Tree

end LpFormat
