import LpFormat.Grammar
import LpFormat.Token.Number

/-!
# Reading tokens

A token is the longest piece that one of the lexical rules takes at the start of the text. Section
keywords come first where a statement may start. Characters that no rule takes are gathered, up to
the next place where a rule applies, into one error token.

* `Lexeme.rule?`: the lexical rules; `Lexeme.startsToken`: whether one applies;
* `Lexeme.scan`: kind and length of the next token, keywords and error tokens included;
* `isClosedComment`: whether a block comment has its closing mark;
* `Reader`: a place in a text from which tokens are read, `Reader.resume`, `Reader.next`,
  `Reader.tokens`;
* `tokenize`, `lex`: all tokens of a text.
* **`Lexeme.scan_pos`**: every token takes at least one character, so reading comes to an end.
-/

namespace LpFormat

/-- Whether a block comment has its closing mark, which the opening mark cannot share. -/
def isClosedComment (text : Text) : Bool :=
  decide (4 ≤ text.byteSize) && ['*', '\\'].isSuffixOf text

namespace Lexeme

/-- The length of the rest of a block comment: up to the first closing mark, or all. -/
def commentTailLength : Text → Nat
  | [] => 0
  | '*' :: '\\' :: _ => 2
  | _ :: cs => 1 + commentTailLength cs

/-- Whether a word stands for infinity. -/
def isInfinity (word : Text) : Bool :=
  Text.sameLetters word "inf".toList || Text.sameLetters word "infinity".toList

/-- The token that starts with a sign: a number or an infinity right after the sign belongs to
it. -/
def signed (operator : Kind) (rest : Text) : Kind × Nat :=
  if startsNumber rest then
    let (kind, n) := Number.scan rest
    (kind, 1 + n)
  else
    let n := identLength rest
    if isInfinity (rest.take n) then (.infinity, 1 + n) else (operator, 1)

/-- The word at the start of a text that begins with one. -/
def word (cs : Text) : Kind × Nat :=
  let n := identLength cs
  (if isInfinity (cs.take n) then .infinity else .ident, n)

/-- The lexical rules: kind and length of the token at the start of a text. -/
def rule? : Text → Option (Kind × Nat)
  | '\r' :: '\n' :: _ => some (.newline, 2)
  | '\r' :: _ => some (.newline, 1)
  | '\n' :: _ => some (.newline, 1)
  | '\\' :: '*' :: rest => some (.blockComment, 2 + commentTailLength rest)
  | '\\' :: rest => some (.lineComment, 1 + (rest.takeWhile fun c => !isLineEnd c).length)
  | '+' :: rest => some (signed .plus rest)
  | '-' :: rest => some (signed .minus rest)
  | '<' :: '=' :: _ => some (.ltEq, 2)
  | '<' :: _ => some (.lt, 1)
  | '>' :: '=' :: _ => some (.gtEq, 2)
  | '>' :: _ => some (.gt, 1)
  | '=' :: '<' :: _ => some (.ltEq, 2)
  | '=' :: '>' :: _ => some (.gtEq, 2)
  | '=' :: _ => some (.eq, 1)
  | ':' :: ':' :: _ => some (.colon2, 2)
  | ':' :: _ => some (.colon, 1)
  | '(' :: _ => some (.lParen, 1)
  | ')' :: _ => some (.rParen, 1)
  | c :: cs =>
    if isBlank c then some (.whitespace, 1 + (cs.takeWhile isBlank).length)
    else if startsNumber (c :: cs) then some (Number.scan (c :: cs))
    else if isIdentStart c then some (word (c :: cs))
    else none
  | [] => none

/-- The characters that start a token whatever follows them. -/
def tokenStarts : List Char :=
  [' ', '\t', '\x0c', '\r', '\n', '\\', '+', '-', '<', '>', '=', ':', '(', ')']

/-- Whether a lexical rule applies at the start of a text. -/
def startsToken : Text → Bool
  | [] => false
  | c :: cs => tokenStarts.contains c || startsNumber (c :: cs) || isIdentStart c

/-- The number of characters before the first place where a token starts. -/
def lengthToToken : Text → Nat
  | [] => 0
  | c :: cs => if startsToken (c :: cs) then 0 else 1 + lengthToToken cs

/-- The length of the error token at the start of a text: its first character, and all after it up
to the next token. -/
def errorLength : Text → Nat
  | [] => 0
  | _ :: cs => 1 + lengthToToken cs

/-- The keyword at the start of a text, where the mode admits one. -/
def keyword? (mode : Mode) (cs : Text) : Option (Kind × Nat) :=
  match mode with
  | .statementStart => Grammar.matchKeyword? cs
  | .inline => none

/-- Kind and length of the token at the start of a text that is not empty. -/
def scan (mode : Mode) (cs : Text) : Kind × Nat :=
  match keyword? mode cs with
  | some keyword => keyword
  | none =>
    if startsToken cs then (rule? cs).getD (.errorToken, errorLength cs)
    else (.errorToken, errorLength cs)

/-! ## Every token is at least one character long -/

theorem signed_pos (operator : Kind) (rest : Text) : 0 < (signed operator rest).2 := by
  rw [signed]
  split
  · simp only
    omega
  · simp only
    split <;> simp only <;> omega

theorem identLength_pos {c : Char} {cs : Text} (h : isIdentStart c = true) :
    0 < identLength (c :: cs) := by
  simp only [identLength, h, if_true]
  omega

theorem rule?_pos {cs : Text} {kind : Kind} {n : Nat} (h : rule? cs = some (kind, n)) : 0 < n := by
  have hsigned : ∀ {op rest}, signed op rest = (kind, n) → 0 < n := fun {op rest} h => by
    have := signed_pos op rest
    rwa [h] at this
  rw [rule?.eq_def] at h
  split at h
  case h_19 =>
    split at h
    · simp only [Option.some.injEq, Prod.mk.injEq] at h
      omega
    · split at h
      · rename_i hs
        have := Number.scan_pos hs
        simp only [Option.some.injEq] at h
        rwa [h] at this
      · split at h
        · rename_i hc
          simp only [word, Option.some.injEq, Prod.mk.injEq] at h
          exact h.2 ▸ identLength_pos hc
        · simp at h
  case h_20 => simp at h
  all_goals
    simp only [Option.some.injEq, Prod.mk.injEq] at h
    first
    | exact hsigned h
    | omega

theorem errorLength_pos {cs : Text} (h : cs ≠ []) : 0 < errorLength cs := by
  cases cs with
  | nil => exact absurd rfl h
  | cons c cs =>
    rw [errorLength]
    omega

/-- Every token takes at least one character. -/
theorem scan_pos (mode : Mode) {cs : Text} (h : cs ≠ []) : 0 < (scan mode cs).2 := by
  rw [scan]
  split
  · rename_i hk
    cases mode with
    | statementStart => exact Grammar.matchKeyword?_pos hk
    | inline => simp [keyword?] at hk
  · split
    · cases hr : rule? cs with
      | none => exact errorLength_pos h
      | some r => exact rule?_pos hr
    · exact errorLength_pos h

end Lexeme

/-- A place in a text, with what is left to read. -/
structure Reader where
  rest : Text
  position : Position
deriving DecidableEq, Repr

namespace Reader

/-- At the start of a text. -/
def ofText (text : Text) : Reader := ⟨text, .zero⟩

/-- At an offset of a text, or at its end if the offset is beyond it. The characters before the
offset are passed all at once. -/
def resume (text : Text) (offset : Nat) : Reader :=
  ⟨text.dropBytes offset, Position.zero.advance (text.takeBytes offset)⟩

/-- Passes the first `n` characters, as a token of a given kind. -/
def take (r : Reader) (kind : Kind) (n : Nat) : Token × Reader :=
  let text := r.rest.take n
  let p := r.position
  let q := p.advance text
  (⟨kind, ⟨p.offset, q.offset⟩, p.line, p.column, text⟩, ⟨r.rest.drop n, q⟩)

/-- Reads one token. At the end of the text this is `Kind.eof`, again and again. -/
def next (r : Reader) (mode : Mode) : Token × Reader :=
  match r.rest with
  | [] => r.take .eof 0
  | c :: cs =>
    let (kind, n) := Lexeme.scan mode (c :: cs)
    r.take kind n

theorem next_rest_length_lt {r : Reader} (mode : Mode) (h : r.rest ≠ []) :
    (r.next mode).2.rest.length < r.rest.length := by
  rw [next]
  split
  · rename_i hr
    exact absurd hr h
  · rename_i c cs hr
    have hpos := Lexeme.scan_pos mode (List.cons_ne_nil c cs)
    have hlen := List.length_pos_iff.2 h
    simp only [take, List.length_drop]
    omega

/-- Reads all tokens, with modes that follow from the tokens read. -/
def tokens (r : Reader) (mode : Mode) : Tokens :=
  if _h : r.rest = [] then ⟨[], (r.next mode).1⟩
  else
    let step := r.next mode
    let more := step.2.tokens (mode.next step.1.kind)
    ⟨step.1 :: more.tokens, more.eof⟩
termination_by r.rest.length
decreasing_by exact next_rest_length_lt mode _h

end Reader

/-- All tokens of a text. -/
def tokenize (text : Text) : Tokens := (Reader.ofText text).tokens .statementStart

/-- The tokens of a text without the end of input. -/
def lex (text : Text) : List Token := (tokenize text).tokens

end LpFormat
