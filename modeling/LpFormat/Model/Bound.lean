import LpFormat.Model.Basic
import LpFormat.Model.Linear

/-!
# Bounds

The limits of a bound are those that its line puts on its variable. They are read from left to right,
and a value on the left of the variable is compared the other way round. A comparison is recorded over
an earlier one of the same direction, without a look at which of the two is tighter: `5 <= x >= 3` is
left with the lower limit 3, so the limit 5 that the line asks for is lost.

* `Limits`, `Limits.apply`;
* `LimitReading`, `Tree.limits`: the limits of a bound node;
* `Bound`, `Tree.bound`.
-/

namespace LpFormat

/-- The limits of a variable. -/
structure Limits where
  lower : Option Binary64 := none
  upper : Option Binary64 := none
deriving DecidableEq, Repr

/-- Records that the variable compares with a value. What was recorded for the same direction is
overwritten, even if it was tighter. -/
def Limits.apply (l : Limits) (op : Comparison) (value : Binary64) : Limits :=
  match op with
  | .lt | .le => { l with upper := some value }
  | .gt | .ge => { l with lower := some value }
  | .eq => ⟨some value, some value⟩

/-- The state while the children of a bound are read. -/
structure LimitReading where
  limits : Limits := {}
  /-- The value, if it can be read, of the constant before the variable. -/
  leading : Option (Option Binary64) := none
  /-- The last comparison not used yet. -/
  op : Option Comparison := none
  seenVariable : Bool := false

/-- A bound: its variable, whether it is declared free, and its limits. -/
structure Bound where
  name : Option Text
  free : Bool
  limits : Limits
deriving DecidableEq, Repr

namespace LimitReading

/-- After the variable: a constant and a comparison before it give a limit. -/
def onVariable (s : LimitReading) : LimitReading :=
  let limits :=
    match s.leading, s.op with
    | some (some value), some op => s.limits.apply op.flipped value
    | _, _ => s.limits
  ⟨limits, none, none, true⟩

/-- After a constant, with its value: after the variable a comparison before it gives a limit. -/
def onConstant (s : LimitReading) (value : Option Binary64) : LimitReading :=
  if s.seenVariable then
    let limits :=
      match value, s.op with
      | some value, some op => s.limits.apply op value
      | _, _ => s.limits
    { s with limits, op := none }
  else { s with leading := some value }

end LimitReading

namespace Tree

/-- Reads one child of a bound. -/
def readLimit (t : Tree) (s : LimitReading) (n : Node) : LimitReading :=
  match Comparison.ofKind? n.kind with
  | some op => { s with op := some op }
  | none =>
    if n.isVariable then s.onVariable
    else if n.kind = .constant then s.onConstant (t.constantValue? n)
    else s

/-- The limits that a bound sets. -/
def limits (t : Tree) (n : Node) : Limits := (n.children.foldl t.readLimit {}).limits

/-- A bound node read. -/
def bound (t : Tree) (n : Node) : Bound where
  name := (n.children.find? Node.isVariable).map t.textOf
  free := (n.childOfKind? .freeKw).isSome
  limits := t.limits n

end Tree

end LpFormat
