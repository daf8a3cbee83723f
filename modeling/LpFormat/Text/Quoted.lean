import LpFormat.Text
import LpFormat.Text.Extending
import LpFormat.Text.Unprinted

/-!
# Quoted text

Listings show text in double quotes on one line. Quotes, backslashes and the common controls have
short escapes; characters that would not be seen on a page are written by number.

* `isUnseen`: characters that leave no mark on a page, and marks on the character before them;
* `Text.quoted`: the quoted form.
-/

namespace LpFormat

/-- The two sound marks of halfwidth kana, which extend the character before them but are drawn in a
place of their own. -/
def isKanaMark (c : Char) : Bool := c == '\uff9e' || c == '\uff9f'

/-- Whether a character is written by number. -/
def isUnseen (c : Char) : Bool := isUnprinted c || (isExtending c && !isKanaMark c)

/-- One character between quotes. -/
def quotedChar (c : Char) : Text :=
  match c with
  | '\t' => ['\\', 't']
  | '\r' => ['\\', 'r']
  | '\n' => ['\\', 'n']
  | '"' => ['\\', '"']
  | '\\' => ['\\', '\\']
  | '\x00' => ['\\', '0']
  | c => if isUnseen c then "\\u\x7b".toList ++ Nat.toDigits 16 c.toNat ++ ['\x7d'] else [c]

/-- A text in quotes. -/
def Text.quoted (text : Text) : Text := '"' :: text.flatMap quotedChar ++ ['"']

end LpFormat
