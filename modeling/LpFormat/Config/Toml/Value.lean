import LpFormat.Text

/-!
# TOML values

Values as far as the settings need them: texts, floats and dates are checked when they are read but
not kept. Numbers of any size are read; whether they are in range is asked when a value is used.

* `Toml.Origin`, `Toml.Value`: tables remember how they came about, because that decides what may be
  added to them;
* `Toml.Fields`, `Toml.lookup`, `Toml.replace`, `Toml.updateAt?`: the fields of a table, and a
  change below a path of keys;
* `Toml.Value.inRange`, `Toml.inRangeFields`: whether all numbers of a value or of some fields are in
  range;
* `Toml.assign?`, `Toml.openTable?`, `Toml.openElement?`: a key with a value, a table header, and
  the header of an element of an array of tables.
-/

namespace LpFormat.Toml

/-- How a table came about. -/
inductive Origin where
  /-- Written between braces; nothing can be added. -/
  | inline
  /-- By its own header. -/
  | header
  /-- By the header of a table below it. -/
  | implicit
  /-- By dotted keys. -/
  | dotted
deriving DecidableEq, Repr

/-- A value of a document. -/
inductive Value where
  | boolean (b : Bool)
  | integer (i : Int)
  | text
  /-- A float, and whether it is in the range of 64 bits. -/
  | float (finite : Bool)
  | dateTime
  | array (items : List Value)
  | table (origin : Origin) (fields : List (Text × Value))
  /-- An array of tables written with headers, last element first. -/
  | tables (elements : List (List (Text × Value)))
deriving Repr, Inhabited

/-- The fields of a table in the order in which they came. -/
abbrev Fields := List (Text × Value)

/-- Whether a whole number fits into 128 bits, with or without a sign. -/
def fits (i : Int) : Bool := decide (-Int.pow 2 127 ≤ i) && decide (i < Int.pow 2 128)

mutual

/-- Whether all numbers of a value are in range. -/
def Value.inRange : Value → Bool
  | .integer i => fits i
  | .float finite => finite
  | .array items => inRangeAll items
  | .table _ fields => inRangeFields fields
  | .tables elements => inRangeElements elements
  | _ => true

/-- Whether all numbers of some values are in range. -/
def inRangeAll : List Value → Bool
  | [] => true
  | value :: values => value.inRange && inRangeAll values

/-- Whether all numbers of some fields are in range. -/
def inRangeFields : List (Text × Value) → Bool
  | [] => true
  | (_, value) :: fields => value.inRange && inRangeFields fields

/-- Whether all numbers of the elements of an array of tables are in range. -/
def inRangeElements : List (List (Text × Value)) → Bool
  | [] => true
  | element :: elements => inRangeFields element && inRangeElements elements

end

/-- The value of a key. -/
def lookup (key : Text) (fields : Fields) : Option Value :=
  (fields.find? fun f => f.1 == key).map (·.2)

/-- Another value for a key that is there. -/
def replace (key : Text) (value : Value) (fields : Fields) : Fields :=
  fields.map fun f => if f.1 == key then (key, value) else f

/-- Changes the fields below a path of keys. Tables on the way that are missing are made. The path
leads through all tables but those in braces, and into the last element of an array of tables. For
dotted keys it leads past no table with a header of its own, and must end in a table that dotted
keys have made. -/
def updateAt? (dotted : Bool) (change : Fields → Option Fields) :
    List Text → Fields → Option Fields
  | [], fields => change fields
  | key :: keys, fields =>
    match lookup key fields with
    | none =>
      (updateAt? dotted change keys []).map fun below =>
        fields ++ [(key, .table (if dotted then .dotted else .implicit) below)]
    | some (.table .inline _) => none
    | some (.table origin below) =>
      if dotted ∧ (origin = .header ∨ origin = .implicit ∧ keys = []) then none
      else
        (updateAt? dotted change keys below).map fun below =>
          replace key (.table origin below) fields
    | some (.tables (element :: elements)) =>
      if dotted ∧ keys = [] then none
      else
        (updateAt? dotted change keys element).map fun element =>
          replace key (.tables (element :: elements)) fields
    | some _ => none

/-- Adds a field whose key is new. -/
def insertNew? (key : Text) (value : Value) (fields : Fields) : Option Fields :=
  if (lookup key fields).isSome then none else some (fields ++ [(key, value)])

/-- Gives a dotted key a value. -/
def assign? (keys : List Text) (value : Value) (fields : Fields) : Option Fields :=
  match keys.getLast? with
  | none => none
  | some key => updateAt? true (insertNew? key value) keys.dropLast fields

/-- Opens the table with a header: it is new, or so far only known by tables below it. -/
def openTable? (keys : List Text) (root : Fields) : Option Fields :=
  match keys.getLast? with
  | none => none
  | some key =>
    updateAt? false (fun fields =>
      match lookup key fields with
      | none => some (fields ++ [(key, .table .header [])])
      | some (.table .implicit below) => some (replace key (.table .header below) fields)
      | some _ => none) keys.dropLast root

/-- Adds an element to an array of tables, or begins one. -/
def openElement? (keys : List Text) (root : Fields) : Option Fields :=
  match keys.getLast? with
  | none => none
  | some key =>
    updateAt? false (fun fields =>
      match lookup key fields with
      | none => some (fields ++ [(key, .tables [[]])])
      | some (.tables elements) => some (replace key (.tables ([] :: elements)) fields)
      | some _ => none) keys.dropLast root

end LpFormat.Toml
