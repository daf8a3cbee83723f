/-!
# Parser options

* `Options`: whether edits reuse the old tree, the cap on diagnostics, and the share of dead entries
  at which a tree is built anew;
* `Setting`: a value as it comes from a settings file or a request;
* `Options.ofSettings?`, `Options.ofList?`: options read from named or from listed values.
-/

namespace LpFormat

/-- Options of parsing and of parsing again after an edit. -/
structure Options where
  /-- Reuse the old tree after an edit. -/
  incremental : Bool := true
  /-- Keep at most this many diagnostics, the first by position. -/
  maxErrors : Option Nat := none
  /-- Build the tree anew once dead entries exceed this share of all entries, in percent. -/
  maxDeadPercent : Nat := 50
deriving DecidableEq, Repr, Inhabited

/-- A value given for an option. -/
inductive Setting where
  | null
  | bool (b : Bool)
  | int (i : Int)
  /-- A value that fits no option. -/
  | other
deriving DecidableEq, Repr

namespace Setting

/-- A truth value. -/
def bool? : Setting → Option Bool
  | bool b => some b
  | _ => none

/-- A whole number from zero up to, not including, a limit. -/
def natBelow? (limit : Nat) : Setting → Option Nat
  | int i => if 0 ≤ i ∧ i < limit then some i.toNat else none
  | _ => none

end Setting

namespace Options

/-- Sets `incremental`. -/
def setIncremental? (o : Options) (s : Setting) : Option Options :=
  s.bool?.map fun b => { o with incremental := b }

/-- Sets the cap on diagnostics, a number of 64 bits; `null` lifts it. -/
def setMaxErrors? (o : Options) : Setting → Option Options
  | .null => some { o with maxErrors := none }
  | s => (s.natBelow? (Nat.pow 2 64)).map fun n => { o with maxErrors := some n }

/-- Sets the share of dead entries, a number of 8 bits. -/
def setMaxDeadPercent? (o : Options) (s : Setting) : Option Options :=
  (s.natBelow? (Nat.pow 2 8)).map fun n => { o with maxDeadPercent := n }

/-- Sets the option with a given name. Other names are passed over, whatever their value. -/
def set? (o : Options) (name : String) (s : Setting) : Option Options :=
  if name = "incremental" then o.setIncremental? s
  else if name = "max_errors" then o.setMaxErrors? s
  else if name = "max_dead_percent" then o.setMaxDeadPercent? s
  else some o

/-- Options from named values; options not named keep their defaults. -/
def ofSettings? (fields : List (String × Setting)) : Option Options :=
  fields.foldlM (fun o (name, s) => o.set? name s) {}

/-- Options from a list of values in the order `incremental`, `max_errors`, `max_dead_percent`.
Options beyond the end of the list keep their defaults, further values are passed over. -/
def ofList? (values : List Setting) : Option Options :=
  ofSettings? (["incremental", "max_errors", "max_dead_percent"].zip values)

end Options

end LpFormat
