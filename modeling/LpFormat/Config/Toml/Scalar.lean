import LpFormat.Binary64
import LpFormat.Config.Toml.Value

/-!
# TOML texts, numbers and dates

* `Toml.isPlain`, `Toml.newline?`: characters that texts and comments may hold, and line ends;
* `Toml.basicText?`, `Toml.literalText?`, `Toml.longBasicText?`, `Toml.longLiteralText?`: the four
  ways to quote a text, from after the opening quotes;
* `Toml.integer?`, `Toml.float?`, `Toml.isDateTime`: the words that stand for numbers and dates;
* `Toml.word?`: the value that a bare word stands for.
-/

namespace LpFormat.Toml

/-! ## Characters -/

/-- Space or tab. -/
def isSpace (c : Char) : Bool := c == ' ' || c == '\t'

/-- A character that can stand in texts and comments as it is: a tab or no control. -/
def isPlain (c : Char) : Bool := c == '\t' || (decide (0x20 ≤ c.toNat) && c.toNat != 0x7f)

/-- What follows a line end. -/
def newline? : Text → Option Text
  | '\n' :: rest => some rest
  | '\r' :: '\n' :: rest => some rest
  | _ => none

/-! ## Texts -/

/-- The value of a hexadecimal digit. -/
def hexDigit? (c : Char) : Option Nat :=
  if c.isDigit then some (c.toNat - '0'.toNat)
  else if 'a' ≤ c ∧ c ≤ 'f' then some (c.toNat - 'a'.toNat + 10)
  else if 'A' ≤ c ∧ c ≤ 'F' then some (c.toNat - 'A'.toNat + 10)
  else none

/-- The character with a number in hexadecimal digits. -/
def scalar? (digits : List Char) : Option Char := do
  let n ← digits.foldlM (fun n c => (hexDigit? c).map (16 * n + ·)) 0
  if n.isValidChar then some (Char.ofNat n) else none

/-- The character that a letter stands for after a backslash. -/
def shortEscape? : Char → Option Char
  | 'b' => some '\x08'
  | 't' => some '\t'
  | 'n' => some '\n'
  | 'e' => some '\x1b'
  | 'f' => some '\x0c'
  | 'r' => some '\r'
  | '"' => some '"'
  | '\\' => some '\\'
  | _ => none

/-- A character before the text that is read next. -/
def prepend (c : Char) : Text × Text → Text × Text
  | (content, rest) => (c :: content, rest)

/-- The content of a text in double quotes, and what follows the closing quote. -/
def basicText? : Text → Option (Text × Text)
  | [] => none
  | '"' :: rest => some ([], rest)
  | '\\' :: 'x' :: a :: b :: rest =>
    (scalar? [a, b]).bind fun x => (basicText? rest).map (prepend x)
  | '\\' :: 'u' :: a :: b :: c :: d :: rest =>
    (scalar? [a, b, c, d]).bind fun x => (basicText? rest).map (prepend x)
  | '\\' :: 'U' :: a :: b :: c :: d :: e :: f :: g :: h :: rest =>
    (scalar? [a, b, c, d, e, f, g, h]).bind fun x => (basicText? rest).map (prepend x)
  | '\\' :: e :: rest => (shortEscape? e).bind fun x => (basicText? rest).map (prepend x)
  | c :: rest => if isPlain c ∧ c ≠ '\\' then (basicText? rest).map (prepend c) else none

/-- The content of a text in single quotes, and what follows the closing quote. -/
def literalText? : Text → Option (Text × Text)
  | [] => none
  | c :: rest =>
    if c = '\x27' then some ([], rest)
    else if isPlain c then (literalText? rest).map (prepend c)
    else none

/-- What follows the quotes that close a long text: up to two more quotes belong to its content. -/
def dropQuotes (quote : Char) : Text → Text
  | a :: b :: rest =>
    if a = quote ∧ b = quote then rest else if a = quote then b :: rest else a :: b :: rest
  | [a] => if a = quote then [] else [a]
  | [] => []

/-- Whether only blanks come before the end of the line. -/
def isLineRest (cs : Text) : Bool := (newline? (cs.dropWhile isSpace)).isSome

/-- What follows a text in triple double quotes. -/
def longBasicText? : Text → Option Text
  | [] => none
  | '"' :: '"' :: '"' :: rest => some (dropQuotes '"' rest)
  | '\\' :: 'x' :: a :: b :: rest => (scalar? [a, b]).bind fun _ => longBasicText? rest
  | '\\' :: 'u' :: a :: b :: c :: d :: rest =>
    (scalar? [a, b, c, d]).bind fun _ => longBasicText? rest
  | '\\' :: 'U' :: a :: b :: c :: d :: e :: f :: g :: h :: rest =>
    (scalar? [a, b, c, d, e, f, g, h]).bind fun _ => longBasicText? rest
  | '\\' :: e :: rest =>
    if (shortEscape? e).isSome ∨ isLineRest (e :: rest) then longBasicText? rest else none
  | '\r' :: '\n' :: rest => longBasicText? rest
  | '\n' :: rest => longBasicText? rest
  | c :: rest => if isPlain c ∧ c ≠ '\\' then longBasicText? rest else none

/-- What follows a text in triple single quotes. -/
def longLiteralText? : Text → Option Text
  | [] => none
  | '\x27' :: '\x27' :: '\x27' :: rest => some (dropQuotes '\x27' rest)
  | '\r' :: '\n' :: rest => longLiteralText? rest
  | '\n' :: rest => longLiteralText? rest
  | c :: rest => if isPlain c then longLiteralText? rest else none

/-! ## Numbers -/

/-- Digits without the underscores between them. -/
def digits? (isDigit : Char → Bool) : Text → Option Text
  | [] => none
  | [c] => if isDigit c then some [c] else none
  | c :: '_' :: d :: rest => if isDigit c then (digits? isDigit (d :: rest)).map (c :: ·) else none
  | c :: d :: rest => if isDigit c then (digits? isDigit (d :: rest)).map (c :: ·) else none

/-- The number that digits of a base stand for. -/
def number? (base : Nat) (ds : Text) : Option Nat :=
  ds.foldlM (fun n c => (hexDigit? c).map (base * n + ·)) 0

/-- Digits without needless zeros in front. -/
def decimal? (cs : Text) : Option Text :=
  (digits? Char.isDigit cs).filter fun ds => ds.length == 1 || ds.head? != some '0'

/-- A sign and what follows it. -/
def sign : Text → Bool × Text
  | '+' :: rest => (false, rest)
  | '-' :: rest => (true, rest)
  | cs => (false, cs)

/-- The whole number that a word stands for. -/
def integer? (word : Text) : Option Int :=
  match word with
  | '0' :: 'x' :: ds => do
    let ds ← digits? (fun c => (hexDigit? c).isSome) ds
    return (← number? 16 ds)
  | '0' :: 'o' :: ds => do
    let ds ← digits? (fun c => decide ('0' ≤ c) && decide (c ≤ '7')) ds
    return (← number? 8 ds)
  | '0' :: 'b' :: ds => do
    let ds ← digits? (fun c => c == '0' || c == '1') ds
    return (← number? 2 ds)
  | _ => do
    let (negative, cs) := sign word
    let n ← number? 10 (← decimal? cs)
    return (if negative then -n else n)

/-- Digits and underscores. -/
def isNumeral (c : Char) : Bool := c.isDigit || c == '_'

/-- The exponent of a float without its underscores; absent if the text is empty. -/
def exponent? : Text → Option Text
  | [] => some []
  | c :: cs =>
    if c = 'e' ∨ c = 'E' then
      let (negative, cs) := sign cs
      (digits? Char.isDigit cs).map fun ds => 'e' :: (if negative then '-' :: ds else ds)
    else none

/-- The fraction of a float without its underscores, and the exponent. -/
def fraction? : Text → Option Text
  | '.' :: cs => do
    let ds ← digits? Char.isDigit (cs.takeWhile isNumeral)
    let e ← exponent? (cs.dropWhile isNumeral)
    return '.' :: ds ++ e
  | cs => exponent? cs

/-- The float that a word stands for: whether it is in the range of 64 bits. -/
def float? (word : Text) : Option Bool :=
  let (_, cs) := sign word
  if cs = "inf".toList ∨ cs = "nan".toList then some true
  else do
    let rest := cs.dropWhile isNumeral
    guard (rest ≠ [])
    let whole ← decimal? (cs.takeWhile isNumeral)
    let fraction ← fraction? rest
    let x ← Binary64.ofText? (whole ++ fraction)
    return x.magnitude != Binary64.infinityMagnitude

/-! ## Dates and times -/

/-- The number that two digits stand for. -/
def twoDigits? (a b : Char) : Option Nat :=
  if a.isDigit ∧ b.isDigit then some (Binary64.ofDigits [a, b]) else none

/-- The number of days of a month. -/
def daysIn (year month : Nat) : Nat :=
  if month = 2 then
    if year % 4 = 0 ∧ (year % 100 ≠ 0 ∨ year % 400 = 0) then 29 else 28
  else if month = 4 ∨ month = 6 ∨ month = 9 ∨ month = 11 then 30
  else 31

/-- What follows a date. -/
def afterDate? : Text → Option Text
  | a :: b :: c :: d :: '-' :: e :: f :: '-' :: g :: h :: rest => do
    let century ← twoDigits? a b
    let year ← twoDigits? c d
    let month ← twoDigits? e f
    let day ← twoDigits? g h
    if 1 ≤ month ∧ month ≤ 12 ∧ 1 ≤ day ∧ day ≤ daysIn (100 * century + year) month then some rest
    else none
  | _ => none

/-- What follows the fraction of a second, if there is one. -/
def afterFraction? : Text → Option Text
  | '.' :: c :: rest => if c.isDigit then some (rest.dropWhile Char.isDigit) else none
  | ['.'] => none
  | cs => some cs

/-- What follows the seconds of a time, which may be left out. -/
def afterSeconds? : Text → Option Text
  | ':' :: a :: b :: rest => do
    let second ← twoDigits? a b
    if second ≤ 60 then afterFraction? rest else none
  | cs => some cs

/-- What follows a time of day. -/
def afterTime? : Text → Option Text
  | a :: b :: ':' :: c :: d :: rest => do
    let hour ← twoDigits? a b
    let minute ← twoDigits? c d
    if hour ≤ 23 ∧ minute ≤ 59 then afterSeconds? rest else none
  | _ => none

/-- Whether a text is a distance from universal time, or empty. -/
def isOffset : Text → Bool
  | [] => true
  | [z] => z == 'Z' || z == 'z'
  | [s, a, b, ':', c, d] =>
    Number.isSign s &&
      match twoDigits? a b, twoDigits? c d with
      | some hour, some minute => decide (hour ≤ 23) && decide (minute ≤ 59)
      | _, _ => false
  | _ => false

/-- Whether a text is a time of day with an optional distance from universal time. -/
def isTimeWithOffset (cs : Text) : Bool := (afterTime? cs).any isOffset

/-- Whether a text is a date, a time, or both. -/
def isDateTime (cs : Text) : Bool :=
  match afterDate? cs with
  | some [] => true
  | some (c :: rest) => (c == 'T' || c == 't' || c == ' ') && isTimeWithOffset rest
  | none => afterTime? cs == some []

/-! ## Bare words -/

/-- A character of a bare word. -/
def isWordChar (c : Char) : Bool :=
  c.isAlphanum || c == '_' || c == '+' || c == '-' || c == '.' || c == ':'

/-- The value that a bare word stands for. -/
def ofWord? (word : Text) : Option Value :=
  if word = "true".toList then some (.boolean true)
  else if word = "false".toList then some (.boolean false)
  else if isDateTime word then some .dateTime
  else
    match integer? word with
    | some i => some (.integer i)
    | none => (float? word).map .float

/-- The value of the bare word at the start of a text, and what follows it. A date and a time may
have a space between them. -/
def word? (cs : Text) : Option (Value × Text) :=
  let word := cs.takeWhile isWordChar
  let rest := cs.dropWhile isWordChar
  match afterDate? word, rest with
  | some [], ' ' :: c :: more =>
    if c.isDigit then
      let both := word ++ ' ' :: (c :: more).takeWhile isWordChar
      if isDateTime both then some (.dateTime, (c :: more).dropWhile isWordChar) else none
    else some (.dateTime, rest)
  | _, _ => (ofWord? word).map (·, rest)

end LpFormat.Toml
