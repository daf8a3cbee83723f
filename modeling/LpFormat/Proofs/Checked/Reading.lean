import LpFormat.Proofs.Checked.Basic
import LpFormat.Proofs.Parsing.Input
import LpFormat.Proofs.Token.Reading

/-!
# Reading ahead with every step tested

Tokens are read one after another from a text, and kept in a buffer for as long as rules look at
them. Every cut of the text and every look into the buffer is tested. Nothing fails, and what is seen
are the tokens ahead.

* `Scanner`, `Scanner.resume`, `Scanner.next`: a place in a text; `Scanner.Shows`: it stands where a
  reader stands, `Scanner.next_eq`, `Scanner.resume_eq`;
* `Group`: a significant token with the trivia before it, `Group.ofTokens`;
* `Source`: a scanner with its buffer; `Source.fill`, `Source.nth`, `Source.takeTrivia`,
  `Source.bump`;
* `Source.Ahead`: the tokens ahead of a source, with **`Source.nth_eq`**, `Source.takeTrivia_eq` and
  `Source.bump_eq`: what the three operations do.
-/

namespace LpFormat

/-! ## Places in a text -/

/-- A place in a text from which tokens are read. -/
structure Scanner where
  text : Text
  position : Position

namespace Scanner

/-- At an offset of a text, or at its end if the offset is beyond it. -/
def resume (text : Text) (offset : Nat) : Checked Scanner := do
  let passed ← Checked.cut text ⟨0, min offset text.byteSize⟩
  return ⟨text, Position.zero.advance passed⟩

/-- Kind and length of the token at the start of what is left. -/
def scan (mode : Mode) (rest : Text) : Kind × Nat :=
  if rest.isEmpty then (.eof, 0) else Lexeme.scan mode rest

/-- Reads one token. -/
def next (s : Scanner) (mode : Mode) : Checked (Token × Scanner) := do
  let p := s.position
  let rest ← Checked.cut s.text ⟨p.offset, s.text.byteSize⟩
  let word : Text ← Checked.take (scan mode rest).2 rest
  let text ← Checked.cut s.text ⟨p.offset, p.offset + word.byteSize⟩
  let start ← Checked.offset p.offset
  let stop ← Checked.offset (p.offset + word.byteSize : Nat)
  let span ← Checked.span start stop
  return (⟨(scan mode rest).1, span, p.line, p.column, text⟩, ⟨s.text, p.advance text⟩)

/-- A scanner stands where a reader stands, in a text whose offsets 32 bits hold. -/
structure Shows (s : Scanner) (r : Reader) : Prop where
  rest : ∃ passed, s.text = passed ++ r.rest ∧ r.position.offset = passed.byteSize
  position : s.position = r.position
  small : s.text.byteSize < Checked.limit

/-- A token is read without fault. -/
theorem next_eq {s : Scanner} {r : Reader} (h : s.Shows r) (mode : Mode) :
    ∃ s', s.next mode = .ok ((r.next mode).1, s') ∧ s'.Shows (r.next mode).2 ∧ s'.text = s.text := by
  obtain ⟨text, p⟩ := s
  obtain ⟨rest, q⟩ := r
  obtain ⟨⟨passed, htext, hoffset⟩, hposition, hsmall⟩ := h
  obtain rfl : p = q := hposition
  simp only at htext hoffset hsmall
  have hsize : text.byteSize = p.offset + rest.byteSize := by
    rw [htext, Text.byteSize_append, hoffset]
  have hle : (scan mode rest).2 ≤ rest.length := by
    cases rest with
    | nil => exact Nat.le_refl 0
    | cons c cs => exact (Lexeme.scan_length_le mode c cs).trans_eq (Nat.add_comm _ _)
  -- what is taken and what is left
  have hsplit : text = passed ++ (rest.take (scan mode rest).2 ++ rest.drop (scan mode rest).2) := by
    rw [List.take_append_drop, htext]
  have hword : Text.byteSize (rest.take (scan mode rest).2) ≤ rest.byteSize := by
    have := congrArg Text.byteSize (List.take_append_drop (scan mode rest).2 rest)
    rw [Text.byteSize_append] at this
    omega
  have hnext : (⟨rest, p⟩ : Reader).next mode =
      (⟨rest, p⟩ : Reader).take (scan mode rest).1 (scan mode rest).2 := by
    cases rest <;> rfl
  refine ⟨⟨text, p.advance (rest.take (scan mode rest).2)⟩, ?_, ?_, rfl⟩
  · have hrest : Checked.cut text ⟨p.offset, text.byteSize⟩ = .ok rest :=
      Checked.cut_of_eq (c := []) (by rw [List.append_nil, htext]) hoffset (by rw [hsize, hoffset])
    have hcut := Checked.cut_of_eq
      (s := ⟨p.offset, p.offset + Text.byteSize (rest.take (scan mode rest).2)⟩) hsplit hoffset (by rw [hoffset])
    simp only [next, hrest, Checked.ok_bind, Checked.take_eq hle, hcut]
    rw [Checked.offset_eq (by omega), Checked.offset_eq (by omega), Checked.ok_bind, Checked.ok_bind,
      Checked.span_eq (by omega), hnext, Reader.take, Position.advance_offset]
    rfl
  · rw [hnext]
    refine ⟨⟨passed ++ rest.take (scan mode rest).2, ?_, ?_⟩, rfl, hsmall⟩
    · rw [List.append_assoc]
      exact hsplit
    · simp only [Reader.take, Position.advance_offset, Text.byteSize_append, hoffset]

/-- A text can be read from each of its boundaries. -/
theorem resume_eq {a b : Text} (h : (a ++ b).byteSize < Checked.limit) :
    ∃ s, resume (a ++ b) a.byteSize = .ok s ∧ s.Shows (Reader.resume (a ++ b) a.byteSize) ∧
      s.text = a ++ b := by
  have hmin : min a.byteSize (a ++ b).byteSize = a.byteSize := by
    rw [Text.byteSize_append]
    omega
  have hcut : Checked.cut (a ++ b) ⟨0, min a.byteSize (a ++ b).byteSize⟩ = .ok a :=
    Checked.cut_of_eq (a := []) rfl rfl (by rw [hmin, Text.byteSize_nil, Nat.zero_add])
  refine ⟨⟨a ++ b, Position.zero.advance a⟩, by rw [resume, hcut]; rfl, ⟨⟨a, ?_, ?_⟩, ?_, h⟩, rfl⟩
  · rw [Reader.resume, Text.dropBytes_append]
  · rw [Reader.resume, Text.takeBytes_append, Position.advance_offset]
    exact Nat.zero_add _
  · rw [Reader.resume, Text.takeBytes_append]

end Scanner

/-! ## Tokens in groups -/

/-- A significant token, or the end of input, with the trivia before it. -/
structure Group where
  trivia : List Token
  token : Token

namespace Group

/-- The groups of some tokens and the end of input. -/
def ofTokens (eof : Token) : List Token → List Group
  | [] => [⟨[], eof⟩]
  | t :: ts =>
    if t.kind.isTrivia then (ofTokens eof ts).modifyHead fun g => ⟨t :: g.trivia, g.token⟩
    else ⟨[], t⟩ :: ofTokens eof ts

variable {eof t : Token} {ts : List Token} {g : Group} {gs : List Group}

theorem ofTokens_trivia (ht : t.kind.isTrivia = true) (h : ofTokens eof ts = g :: gs) :
    ofTokens eof (t :: ts) = ⟨t :: g.trivia, g.token⟩ :: gs := by
  rw [ofTokens, if_pos ht, h]
  rfl

theorem ofTokens_significant (ht : t.kind.isTrivia = false) :
    ofTokens eof (t :: ts) = ⟨[], t⟩ :: ofTokens eof ts := by
  rw [ofTokens, if_neg (by simp [ht])]

theorem exists_ofTokens (eof : Token) (ts : List Token) : ∃ g gs, ofTokens eof ts = g :: gs := by
  induction ts with
  | nil => exact ⟨_, _, rfl⟩
  | cons t ts ih =>
    obtain ⟨g, gs, h⟩ := ih
    by_cases ht : t.kind.isTrivia = true
    · exact ⟨_, _, ofTokens_trivia ht h⟩
    · exact ⟨_, _, ofTokens_significant (by simpa using ht)⟩

/-- The `n`th significant token is in the `n`th group, or in the last one. -/
theorem token_ofTokens (eof : Token) (n : Nat) (ts : List Token) :
    ((ofTokens eof ts)[min n ((ofTokens eof ts).length - 1)]?).map token =
      some (Input.nth eof n ts) := by
  induction ts generalizing n with
  | nil => simp [ofTokens, Input.nth]
  | cons t ts ih =>
    obtain ⟨g, gs, h⟩ := exists_ofTokens eof ts
    rw [h] at ih
    by_cases ht : t.kind.isTrivia = true
    · rw [ofTokens_trivia ht h, Input.nth_cons_trivia ht, ← ih n, List.length_cons, List.length_cons]
      cases min n (gs.length + 1 - 1) <;> rfl
    · have ht' : t.kind.isTrivia = false := by simpa using ht
      rw [ofTokens_significant ht', h]
      cases n with
      | zero => rw [Input.nth_zero_cons ht', Nat.zero_min]; rfl
      | succ n =>
        rw [Input.nth_succ_cons ht', ← ih n]
        simp only [List.length_cons, Nat.add_sub_cancel, Nat.succ_min_succ, List.getElem?_cons_succ]

/-- The trivia ahead are those of the first group. -/
theorem trivia_ofTokens (h : ofTokens eof ts = g :: gs) :
    g.trivia = ts.takeWhile (·.kind.isTrivia) ∧
      ofTokens eof (ts.dropWhile (·.kind.isTrivia)) = ⟨[], g.token⟩ :: gs := by
  induction ts generalizing g gs with
  | nil =>
    obtain ⟨rfl, rfl⟩ := List.cons.inj h
    exact ⟨rfl, rfl⟩
  | cons t ts ih =>
    obtain ⟨g', gs', h'⟩ := exists_ofTokens eof ts
    by_cases ht : t.kind.isTrivia = true
    · obtain ⟨h₁, h₂⟩ := ih h'
      rw [ofTokens_trivia ht h'] at h
      obtain ⟨rfl, rfl⟩ := List.cons.inj h
      rw [List.takeWhile_cons_of_pos (p := fun t : Token => t.kind.isTrivia) ht,
        List.dropWhile_cons_of_pos (p := fun t : Token => t.kind.isTrivia) ht, h₁]
      exact ⟨rfl, h₂⟩
    · rw [ofTokens_significant (by simpa using ht)] at h
      obtain ⟨rfl, rfl⟩ := List.cons.inj h
      rw [List.takeWhile_cons_of_neg (p := fun t : Token => t.kind.isTrivia) ht,
        List.dropWhile_cons_of_neg (p := fun t : Token => t.kind.isTrivia) ht]
      exact ⟨rfl, ofTokens_significant (by simpa using ht)⟩

end Group

/-! ## The buffer -/

/-- Tokens that were read ahead, and the place behind them. -/
structure Source where
  scanner : Scanner
  mode : Mode
  buffer : List Group

namespace Source

/-- Reads the next group; a loop that goes on beyond a number of rounds fails. -/
def readGroup : Nat → Scanner → Mode → Checked (Group × Scanner)
  | 0, _, _ => .error .endless
  | rounds + 1, s, mode => do
    let (t, s) ← s.next mode
    if t.kind.isTrivia then
      let (g, s) ← readGroup rounds s mode
      return (⟨t :: g.trivia, g.token⟩, s)
    else return (⟨[], t⟩, s)

/-- Whether the end of input is in the buffer. -/
def isComplete (s : Source) : Bool := s.buffer.getLast?.any fun g => g.token.kind == .eof

/-- Reads some more groups, but nothing past the end of input. -/
def fillBy : Nat → Source → Checked Source
  | 0, s => .ok s
  | n + 1, s =>
    if s.isComplete then .ok s
    else do
      let (g, scanner) ← readGroup (s.scanner.text.length + 1) s.scanner s.mode
      fillBy n ⟨scanner, .after g.token.kind, s.buffer ++ [g]⟩

/-- Reads ahead until there is a group with a given index, or the input ends. -/
def fill (n : Nat) (s : Source) : Checked Source := fillBy (n + 1 - s.buffer.length) s

/-- The `n`th significant token ahead. -/
def nth (n : Nat) (s : Source) : Checked (Token × Source) := do
  let s ← s.fill n
  let last ← Checked.sub s.buffer.length 1
  let g ← Checked.get s.buffer (min n last)
  return (g.token, s)

/-- The trivia ahead, which are given out once. -/
def takeTrivia (s : Source) : Checked (List Token × Source) := do
  let s ← s.fill 0
  let g ← Checked.get s.buffer 0
  return (g.trivia, { s with buffer := s.buffer.set 0 ⟨[], g.token⟩ })

/-- The next significant token, which is passed unless the input ends. -/
def bump (s : Source) : Checked (Token × Source) := do
  let s ← s.fill 0
  let g ← Checked.get s.buffer 0
  if g.token.kind = .eof then return (g.token, s)
  else return (g.token, { s with buffer := s.buffer.tail })

/-- The tokens ahead of a source: those in the buffer and those that are not read yet. -/
def Ahead (s : Source) (eof : Token) (tokens : List Token) : Prop :=
  ∃ r gs, s.scanner.Shows r ∧ Group.ofTokens eof tokens = s.buffer ++ gs ∧
    (s.isComplete = true ∧ gs = [] ∨ s.isComplete = false ∧
      gs = Group.ofTokens eof (r.tokens s.mode).tokens ∧ (r.tokens s.mode).eof = eof)

variable {eof : Token} {tokens : List Token} {s : Source}

/-- A group is read without fault: either it ends the input, or the rest follows it. -/
theorem readGroup_eq {rounds : Nat} {s : Scanner} {r : Reader} (h : s.Shows r) (mode : Mode)
    (hrounds : r.rest.length < rounds) :
    ∃ g s' r', readGroup rounds s mode = .ok (g, s') ∧ s'.Shows r' ∧ s'.text = s.text ∧
      (g.token.kind = .eof ∧
          Group.ofTokens (r.tokens mode).eof (r.tokens mode).tokens = [g] ∨
        g.token.kind ≠ .eof ∧
          Group.ofTokens (r.tokens mode).eof (r.tokens mode).tokens =
            g :: Group.ofTokens (r.tokens mode).eof (r'.tokens (.after g.token.kind)).tokens ∧
          (r'.tokens (.after g.token.kind)).eof = (r.tokens mode).eof) := by
  induction rounds generalizing s r with
  | zero => exact absurd hrounds (Nat.not_lt_zero _)
  | succ rounds ih =>
    obtain ⟨s₁, hnext, hs₁, htext⟩ := s.next_eq h mode
    rw [readGroup, hnext, Checked.ok_bind]
    by_cases hne : r.rest = []
    · have heof := (Reader.next_eof mode hne).1
      rw [Reader.tokens_nil mode hne]
      refine ⟨⟨[], (r.next mode).1⟩, s₁, _, ?_, hs₁, htext, .inl ⟨heof, rfl⟩⟩
      simp only [heof]
      rfl
    · have hlexed := (Reader.yields_next mode hne).kind_isLexed
      have hlt := Reader.next_rest_length_lt mode hne
      rw [Reader.tokens_cons mode hne]
      by_cases ht : (r.next mode).1.kind.isTrivia = true
      · obtain ⟨g, s₂, r₂, hread, hs₂, htext₂, hg⟩ := ih hs₁ (by omega)
        have hmode : mode.next (r.next mode).1.kind = mode := if_pos ht
        refine ⟨⟨(r.next mode).1 :: g.trivia, g.token⟩, s₂, r₂, ?_, hs₂, htext₂.trans htext, ?_⟩
        · simp only [if_pos ht, hread, Checked.ok_bind]
          rfl
        · rw [hmode]
          rcases hg with ⟨hk, hg⟩ | ⟨hk, hg, heof⟩
          · exact .inl ⟨hk, Group.ofTokens_trivia ht hg⟩
          · exact .inr ⟨hk, Group.ofTokens_trivia ht hg, heof⟩
      · have hmode : mode.next (r.next mode).1.kind = .after (r.next mode).1.kind := if_neg ht
        refine ⟨⟨[], (r.next mode).1⟩, s₁, _, if_neg ht, hs₁, htext, .inr ⟨?_, ?_, ?_⟩⟩
        · intro hk
          rw [show (r.next mode).1.kind = .eof from hk] at hlexed
          cases hlexed
        · rw [hmode]
          exact Group.ofTokens_significant (by simpa using ht)
        · rw [hmode]

theorem isComplete_append (s : Source) (scanner : Scanner) (mode : Mode) (g : Group) :
    isComplete ⟨scanner, mode, s.buffer ++ [g]⟩ = (g.token.kind == .eof) := by
  rw [isComplete, List.getLast?_concat, Option.any_some]

theorem fillBy_eq (h : s.Ahead eof tokens) (n : Nat) :
    ∃ s', fillBy n s = .ok s' ∧ s'.Ahead eof tokens ∧ s'.scanner.text = s.scanner.text ∧
      (s.buffer.length + n ≤ s'.buffer.length ∨ s'.isComplete = true) := by
  induction n generalizing s with
  | zero => exact ⟨s, rfl, h, rfl, .inl (Nat.le_refl _)⟩
  | succ n ih =>
    by_cases hc : s.isComplete = true
    · exact ⟨s, by rw [fillBy, if_pos hc], h, rfl, .inr hc⟩
    · obtain ⟨r, gs, hr, hgroups, ⟨hc', _⟩ | ⟨_, rfl, heof⟩⟩ := h
      · exact absurd hc' hc
      · have hlength : r.rest.length < s.scanner.text.length + 1 := by
          obtain ⟨passed, htext, _⟩ := hr.rest
          rw [htext, List.length_append]
          omega
        obtain ⟨g, scanner, r', hread, hr', htext, hg⟩ := readGroup_eq hr s.mode hlength
        rw [heof] at hg
        have hnext : Ahead ⟨scanner, .after g.token.kind, s.buffer ++ [g]⟩ eof tokens := by
          rcases hg with ⟨hk, hg⟩ | ⟨hk, hg, heof'⟩
          · refine ⟨r', [], hr', by rw [hgroups, hg, List.append_nil], .inl ⟨?_, rfl⟩⟩
            rw [isComplete_append, hk]
            rfl
          · refine ⟨r', _, hr', by rw [hgroups, hg, List.append_assoc]; rfl, .inr ⟨?_, rfl, heof'⟩⟩
            rw [isComplete_append]
            simpa using hk
        obtain ⟨s', hfill, hs', htext', hlen⟩ := ih hnext
        refine ⟨s', ?_, hs', htext'.trans htext, hlen.imp_left fun hlen => ?_⟩
        · rw [fillBy, if_neg hc, hread, Checked.ok_bind]
          exact hfill
        · rw [List.length_append, List.length_singleton] at hlen
          omega

theorem fill_eq (h : s.Ahead eof tokens) (n : Nat) :
    ∃ s', fill n s = .ok s' ∧ s'.Ahead eof tokens ∧ s'.scanner.text = s.scanner.text ∧
      (n < s'.buffer.length ∨ s'.isComplete = true) := by
  obtain ⟨s', hfill, hs', htext, hlen⟩ := fillBy_eq h (n + 1 - s.buffer.length)
  exact ⟨s', hfill, hs', htext, hlen.imp_left fun hlen => by omega⟩

theorem length_pos_of_isComplete (h : s.isComplete = true) : 0 < s.buffer.length := by
  rw [List.length_pos_iff]
  rintro hnil
  rw [isComplete, hnil] at h
  cases h

/-- **Looking ahead**: whatever the distance, the token is the one that is ahead. -/
theorem nth_eq (h : s.Ahead eof tokens) (n : Nat) :
    ∃ s', nth n s = .ok (Input.nth eof n tokens, s') ∧ s'.Ahead eof tokens ∧
      s'.scanner.text = s.scanner.text := by
  obtain ⟨s', hfill, hs', htext, hlen⟩ := fill_eq h n
  refine ⟨s', ?_, hs', htext⟩
  have hpos : 0 < s'.buffer.length := by
    rcases hlen with hlen | hc
    · omega
    · exact length_pos_of_isComplete hc
  -- the index in the buffer is the one among all groups
  obtain ⟨r, gs, _, hgroups, hcase⟩ := hs'
  have htoken := Group.token_ofTokens eof n tokens
  have hindex : min n ((s'.buffer ++ gs).length - 1) = min n (s'.buffer.length - 1) := by
    rw [List.length_append]
    rcases hlen with hlen | hc
    · omega
    · rcases hcase with ⟨_, rfl⟩ | ⟨hc', _⟩
      · rfl
      · rw [hc] at hc'
        cases hc'
  rw [hgroups, hindex, List.getElem?_append_left (by omega)] at htoken
  obtain ⟨g, hg, hgt⟩ := Option.map_eq_some_iff.1 htoken
  simp only [nth, hfill, Checked.ok_bind, Checked.sub_eq hpos, Checked.get_eq hg, hgt]
  rfl

/-- The first group is in the buffer once something is read ahead. -/
theorem fill_zero_eq (h : s.Ahead eof tokens) :
    ∃ s' g gs rest r, fill 0 s = .ok s' ∧ s'.scanner.text = s.scanner.text ∧
      s'.buffer = g :: gs ∧ s'.scanner.Shows r ∧ Group.ofTokens eof tokens = g :: (gs ++ rest) ∧
      (s'.isComplete = true ∧ rest = [] ∨ s'.isComplete = false ∧
        rest = Group.ofTokens eof (r.tokens s'.mode).tokens ∧ (r.tokens s'.mode).eof = eof) := by
  obtain ⟨s', hfill, ⟨r, rest, hr, hgroups, hcase⟩, htext, hlen⟩ := fill_eq h 0
  obtain ⟨g, gs, hbuffer⟩ := List.exists_cons_of_length_pos
    (hlen.elim id length_pos_of_isComplete : 0 < s'.buffer.length)
  exact ⟨s', g, gs, rest, r, hfill, htext, hbuffer, hr, by rw [hgroups, hbuffer]; rfl, hcase⟩

theorem takeTrivia_eq (h : s.Ahead eof tokens) :
    ∃ s', takeTrivia s = .ok (tokens.takeWhile (·.kind.isTrivia), s') ∧
      s'.Ahead eof (tokens.dropWhile (·.kind.isTrivia)) ∧
      s'.scanner.text = s.scanner.text := by
  obtain ⟨s', g, gs, rest, r, hfill, htext, hbuffer, hr, hgroups, hcase⟩ := fill_zero_eq h
  obtain ⟨htrivia, hdrop⟩ := Group.trivia_ofTokens hgroups
  have hcomplete : isComplete { s' with buffer := ⟨[], g.token⟩ :: gs } = s'.isComplete := by
    rw [isComplete, isComplete, hbuffer]
    cases gs <;> rfl
  refine ⟨{ s' with buffer := ⟨[], g.token⟩ :: gs }, ?_, ⟨r, rest, hr, hdrop, ?_⟩, htext⟩
  · simp only [takeTrivia, hfill, Checked.ok_bind, hbuffer, ← htrivia]
    rfl
  · rw [hcomplete]
    exact hcase

/-- A significant token that is next is passed. -/
theorem bump_eq {t : Token} (h : s.Ahead eof (t :: tokens)) (ht : t.kind.isTrivia = false)
    (hk : t.kind ≠ .eof) :
    ∃ s', bump s = .ok (t, s') ∧ s'.Ahead eof tokens ∧ s'.scanner.text = s.scanner.text := by
  obtain ⟨s', g, gs, rest, r, hfill, htext, hbuffer, hr, hgroups, hcase⟩ := fill_zero_eq h
  rw [Group.ofTokens_significant ht] at hgroups
  obtain ⟨rfl, hgroups'⟩ := List.cons.inj hgroups
  have hcomplete : isComplete { s' with buffer := gs } = s'.isComplete := by
    rw [isComplete, isComplete, hbuffer]
    cases gs with
    | nil => simp [hk]
    | cons => rfl
  refine ⟨{ s' with buffer := gs }, ?_, ⟨r, rest, hr, hgroups', ?_⟩, htext⟩
  · simp only [bump, hfill, Checked.ok_bind, hbuffer]
    change (if t.kind = .eof then _ else _) = _
    rw [if_neg hk]
    rfl
  · rw [hcomplete]
    exact hcase

end Source

end LpFormat
