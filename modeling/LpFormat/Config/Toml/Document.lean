import LpFormat.Config.Toml.Scalar

/-!
# TOML documents

* `Toml.filler?`: blanks, line ends and comments inside arrays and tables in braces;
* `Toml.keys?`: a dotted key;
* `Toml.value?`: a value, with arrays and tables in braces;
* `Toml.line?`: a line of a document: a header, a key with a value, or nothing;
* `Toml.document?`: the fields of a document, absent if it is malformed.
-/

namespace LpFormat.Toml

/-- Skips spaces and tabs. -/
def skipSpace (cs : Text) : Text := cs.dropWhile isSpace

/-- Skips a comment up to the end of its line. -/
def skipComment : Text → Text
  | '#' :: rest => rest.dropWhile isPlain
  | cs => cs

/-- What follows the end of a line, before which only a comment may stand. -/
def lineEnd? (cs : Text) : Option Text :=
  match skipComment (skipSpace cs) with
  | [] => some []
  | rest => newline? rest

/-- What follows blanks, line ends and comments, where `comment` says that a comment is open. -/
def filler? (comment : Bool) : Text → Option Text
  | [] => some []
  | '\r' :: '\n' :: rest => filler? false rest
  | '\n' :: rest => filler? false rest
  | c :: rest =>
    if comment then if isPlain c then filler? true rest else none
    else if isSpace c then filler? false rest
    else if c = '#' then filler? true rest
    else some (c :: rest)

/-! ## Keys -/

/-- A character of a bare key. -/
def isKeyChar (c : Char) : Bool := c.isAlphanum || c == '_' || c == '-'

/-- A bare or quoted key, and what follows it. -/
def simpleKey? : Text → Option (Text × Text)
  | '"' :: rest => basicText? rest
  | '\x27' :: rest => literalText? rest
  | cs =>
    let key := cs.takeWhile isKeyChar
    if key = [] then none else some (key, cs.dropWhile isKeyChar)

/-- Keys with points between them, and what follows them and the blanks after them. -/
def keysWithin? : Nat → Text → Option (List Text × Text)
  | 0, _ => none
  | n + 1, cs => do
    let (key, rest) ← simpleKey? cs
    match skipSpace rest with
    | '.' :: rest =>
      let (keys, rest) ← keysWithin? n (skipSpace rest)
      return (key :: keys, rest)
    | rest => return ([key], rest)

/-- How deep arrays and tables in braces may nest, and how many parts a dotted key may have. -/
def maxDepth : Nat := 80

/-- A dotted key, and what follows it and the blanks after it. -/
def keys? (cs : Text) : Option (List Text × Text) :=
  (keysWithin? (cs.length + 1) cs).filter fun r => decide (r.1.length ≤ maxDepth)

/-! ## Values -/

mutual

/-- A value, and what follows it; `levels` is how deep it may nest. -/
def valueWithin? : Nat → Nat → Text → Option (Value × Text)
  | 0, _, _ => none
  | n + 1, levels, cs =>
    match cs with
    | '"' :: '"' :: '"' :: rest => (longBasicText? rest).map (.text, ·)
    | '"' :: rest => (basicText? rest).map fun r => (.text, r.2)
    | '\x27' :: '\x27' :: '\x27' :: rest => (longLiteralText? rest).map (.text, ·)
    | '\x27' :: rest => (literalText? rest).map fun r => (.text, r.2)
    | '[' :: rest => do
      guard (0 < levels)
      let (items, rest) ← itemsWithin? n (levels - 1) (← filler? false rest)
      return (.array items, rest)
    | '\x7b' :: rest => do
      guard (0 < levels)
      let (fields, rest) ← fieldsWithin? n (levels - 1) [] (← filler? false rest)
      return (.table .inline fields, rest)
    | cs => word? cs

/-- The items of an array up to its closing bracket. -/
def itemsWithin? : Nat → Nat → Text → Option (List Value × Text)
  | 0, _, _ => none
  | n + 1, levels, cs =>
    match cs with
    | ']' :: rest => some ([], rest)
    | cs => do
      let (item, rest) ← valueWithin? n levels cs
      match ← filler? false rest with
      | ',' :: rest =>
        let (items, rest) ← itemsWithin? n levels (← filler? false rest)
        return (item :: items, rest)
      | ']' :: rest => return ([item], rest)
      | _ => none

/-- The fields of a table in braces up to its closing brace, after some others. -/
def fieldsWithin? : Nat → Nat → Fields → Text → Option (Fields × Text)
  | 0, _, _, _ => none
  | n + 1, levels, fields, cs =>
    match cs with
    | '\x7d' :: rest => some (fields, rest)
    | cs => do
      let (keys, rest) ← keys? cs
      match ← filler? false rest with
      | '=' :: rest =>
        let (value, rest) ← valueWithin? n levels (← filler? false rest)
        let fields ← assign? keys value fields
        match ← filler? false rest with
        | ',' :: rest => fieldsWithin? n levels fields (← filler? false rest)
        | '\x7d' :: rest => return (fields, rest)
        | _ => none
      | _ => none

end

/-- A value, and what follows it. -/
def value? (cs : Text) : Option (Value × Text) :=
  valueWithin? (2 * cs.length + 2) maxDepth cs

/-! ## Lines -/

/-- A document while it is read: its fields, and the way to the table that is open. -/
structure State where
  root : Fields := []
  keys : List Text := []

/-- Gives a key of the open table a value. The way to the open table leads through headers. -/
def State.assign? (s : State) (keys : List Text) (value : Value) : Option State :=
  (updateAt? false (Toml.assign? keys value) s.keys s.root).map fun root => { s with root }

/-- Reads one line, and gives what follows it. -/
def line? (s : State) (cs : Text) : Option (State × Text) :=
  match skipSpace cs with
  | '[' :: '[' :: rest => do
    let (keys, rest) ← keys? (skipSpace rest)
    match rest with
    | ']' :: ']' :: rest => return (⟨← openElement? keys s.root, keys⟩, ← lineEnd? rest)
    | _ => none
  | '[' :: rest => do
    let (keys, rest) ← keys? (skipSpace rest)
    match rest with
    | ']' :: rest => return (⟨← openTable? keys s.root, keys⟩, ← lineEnd? rest)
    | _ => none
  | rest =>
    match lineEnd? rest with
    | some rest => some (s, rest)
    | none => do
      let (keys, rest) ← keys? rest
      match rest with
      | '=' :: rest =>
        let (value, rest) ← value? (skipSpace rest)
        return (← s.assign? keys value, ← lineEnd? rest)
      | _ => none

/-- Reads at most `n` lines, which must be all. -/
def linesWithin? : Nat → State → Text → Option State
  | _, s, [] => some s
  | 0, _, _ => none
  | n + 1, s, cs => do
    let (s, rest) ← line? s cs
    linesWithin? n s rest

/-- A text without the mark of its byte order. -/
def skipMark : Text → Text
  | '\ufeff' :: rest => rest
  | cs => cs

/-- The fields of a document. -/
def document? (text : Text) : Option Fields :=
  let cs := skipMark text
  (linesWithin? (cs.length + 1) {} cs).map State.root

end LpFormat.Toml
