import LpFormat.Text.Quoted
import LpFormat.Tree

/-!
# Listings

A listing shows a tree with one node a line, indented by depth, and the quoted text of each token.
-/

namespace LpFormat.Tree

/-- The line of one node. -/
def listingLine (t : Tree) (depth : Nat) (n : Node) : String :=
  let indent := String.ofList (List.replicate (2 * depth) ' ')
  let quoted := if n.kind.isToken then " " ++ String.ofList (t.textOf n).quoted else ""
  indent ++ n.render ++ quoted ++ "\n"

/-- The listing of a tree. -/
def listing (t : Tree) : String :=
  String.join ((t.root.outline 0).map fun (depth, n) => t.listingLine depth n)

end LpFormat.Tree
