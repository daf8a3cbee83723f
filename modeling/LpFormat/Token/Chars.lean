import LpFormat.Text

/-!
# Character classes of the lexer

All classes hold ASCII characters only.

* `isBlank`: blanks inside a line; `isGap`: the blanks that may separate the words of a keyword;
* `isIdentStart`, `isIdentContinue`: the characters of identifiers;
* `startsNumber`: a digit, or a point and a digit.
-/

namespace LpFormat

/-- Space, tab or form feed. -/
def isBlank (c : Char) : Bool := c == ' ' || c == '\t' || c == '\x0c'

/-- Space or tab. -/
def isGap (c : Char) : Bool := c == ' ' || c == '\t'

/-- Carriage return or line feed. -/
def isLineEnd (c : Char) : Bool := c == '\r' || c == '\n'

/-- The characters besides letters that can start an identifier. -/
def identSigns : List Char := ['_', '!', '#', '$', '%', '&', ';', '?', '@', '\x27', '\x7b', '\x7d']

/-- A character that can start an identifier. -/
def isIdentStart (c : Char) : Bool := c.isAlpha || identSigns.contains c

/-- A character that can stand inside an identifier. -/
def isIdentContinue (c : Char) : Bool := isIdentStart c || c.isDigit || c == '.'

/-- Whether the text begins with a digit, or with a point and a digit. -/
def startsNumber : Text → Bool
  | '.' :: c :: _ => c.isDigit
  | c :: _ => c.isDigit
  | [] => false

/-- The length of the blanks at the start of a text that may separate words of a keyword. -/
def gapLength (cs : Text) : Nat := (cs.takeWhile isGap).length

/-- The length of the identifier at the start of a text, zero if none starts there. -/
def identLength : Text → Nat
  | [] => 0
  | c :: cs => if isIdentStart c then 1 + (cs.takeWhile isIdentContinue).length else 0

end LpFormat
