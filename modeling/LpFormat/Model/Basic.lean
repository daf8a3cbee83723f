import LpFormat.Kind

/-!
# Notions of the model

* `Sense`, `SectionKind`: what a section declares, and `SectionKind.ofKeyword?`;
* `Comparison`: the five relations, `Comparison.ofKind?` and `Comparison.flipped`;
* `SosType`: the two types of special ordered sets.
-/

namespace LpFormat

/-- Which way an objective goes. -/
inductive Sense where
  | minimize
  | maximize
deriving DecidableEq, Repr

/-- The name of a sense. -/
def Sense.name : Sense → String
  | minimize => "Minimize"
  | maximize => "Maximize"

/-- What a section holds. -/
inductive SectionKind where
  | objective (sense : Sense)
  | constraints
  | bounds
  | generals
  | integers
  | binaries
  | semiContinuous
  | sos
deriving DecidableEq, Repr

namespace SectionKind

/-- What the section that a keyword opens holds. -/
def ofKeyword? : Kind → Option SectionKind
  | .minimizeKw => some (.objective .minimize)
  | .maximizeKw => some (.objective .maximize)
  | .subjectToKw => some .constraints
  | .boundsKw => some .bounds
  | .generalsKw => some .generals
  | .integersKw => some .integers
  | .binariesKw => some .binaries
  | .semiContinuousKw => some .semiContinuous
  | .sosKw => some .sos
  | _ => none

/-- The name of a section kind. -/
def name : SectionKind → String
  | objective sense => sense.name
  | constraints => "Constraints"
  | bounds => "Bounds"
  | generals => "Generals"
  | integers => "Integers"
  | binaries => "Binaries"
  | semiContinuous => "SemiContinuous"
  | sos => "Sos"

/-- The sense of a section with an objective. -/
def sense? : SectionKind → Option Sense
  | objective sense => some sense
  | _ => none

end SectionKind

/-- A relation between two values. -/
inductive Comparison where
  | lt
  | le
  | gt
  | ge
  | eq
deriving DecidableEq, Repr

namespace Comparison

/-- The relation that a token stands for. -/
def ofKind? : Kind → Option Comparison
  | .lt => some .lt
  | .ltEq => some .le
  | .gt => some .gt
  | .gtEq => some .ge
  | .eq => some .eq
  | _ => none

/-- The relation with its sides exchanged: `2 >= x` is `x <= 2`. -/
def flipped : Comparison → Comparison
  | lt => gt
  | le => ge
  | gt => lt
  | ge => le
  | eq => eq

/-- The name of a relation. -/
def name : Comparison → String
  | lt => "Lt"
  | le => "Le"
  | gt => "Gt"
  | ge => "Ge"
  | eq => "Eq"

end Comparison

/-- The types of special ordered sets. -/
inductive SosType where
  | s1
  | s2
deriving DecidableEq, Repr

/-- The name of a type of special ordered sets. -/
def SosType.name : SosType → String
  | s1 => "S1"
  | s2 => "S2"

end LpFormat
