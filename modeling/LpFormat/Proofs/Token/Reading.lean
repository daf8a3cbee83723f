import LpFormat.Proofs.Text.Bytes
import LpFormat.Proofs.Token.Lookahead

/-!
# Reading tokens one after another

* `Reader.Yields`: the next token of a reader, `Reader.yields_next`;
* `Reader.Reads`: the tokens between two places of a text, with `Reader.Reads.tokens_eq` (reading
  all tokens goes through every such place) and `Reader.exists_reads` (every place is reached);
* `Token.Moved`, **`Reader.tokens_moved`**: the same characters give the same tokens wherever they
  stand in a text;
* **`Reader.Reads.change`**: tokens up to a line end or a closed comment do not depend on what
  follows.
-/

namespace LpFormat

theorem Position.advanceFrom_offset (b : Bool) (p : Position) (cs : Text) :
    (p.advanceFrom b cs).offset = p.offset + cs.byteSize := by
  induction cs generalizing b p with
  | nil => rfl
  | cons c cs ih =>
    rw [advanceFrom, Text.byteSize_cons]
    split_ifs <;> rw [ih] <;> simp only <;> omega

theorem Position.advance_offset (p : Position) (cs : Text) :
    (p.advance cs).offset = p.offset + cs.byteSize := p.advanceFrom_offset false cs

namespace Reader

/-- The token that a reader reads next, and the place after it. -/
structure Yields (r : Reader) (mode : Mode) (t : Token) (r' : Reader) : Prop where
  scan : Lexeme.scan mode r.rest = (t.kind, t.text.length)
  rest : r.rest = t.text ++ r'.rest
  text_ne : t.text ≠ []
  start : t.span.start = r.position.offset
  stop : t.span.stop = r.position.offset + t.text.byteSize
  offset : r'.position.offset = t.span.stop

theorem yields_next {r : Reader} (mode : Mode) (h : r.rest ≠ []) :
    r.Yields mode (r.next mode).1 (r.next mode).2 := by
  obtain ⟨rest, p⟩ := r
  cases rest with
  | nil => exact absurd rfl h
  | cons c cs =>
    have hle := Lexeme.scan_length_le mode c cs
    have hpos := Lexeme.scan_pos mode (List.cons_ne_nil c cs)
    cases hs : Lexeme.scan mode (c :: cs) with
    | mk kind n =>
      rw [hs] at hle hpos
      simp only at hle hpos
      have hnext : (⟨c :: cs, p⟩ : Reader).next mode = (⟨c :: cs, p⟩ : Reader).take kind n := by
        simp only [next, hs]
      have hlen : ((c :: cs).take n).length = n := by
        rw [List.length_take, List.length_cons]
        omega
      rw [hnext]
      constructor
      · simp only [take, hlen, hs]
      · simp only [take, List.take_append_drop]
      · intro hnil
        simp only [take] at hnil
        rw [hnil, List.length_nil] at hlen
        omega
      · rfl
      · simp only [take, Position.advance_offset]
      · rfl

theorem next_append {mode : Mode} {w x : Text} {kind : Kind} (p : Position) (hw : w ≠ [])
    (h : Lexeme.scan mode (w ++ x) = (kind, w.length)) :
    (⟨w ++ x, p⟩ : Reader).next mode =
      (⟨kind, ⟨p.offset, (p.advance w).offset⟩, p.line, p.column, w⟩, ⟨x, p.advance w⟩) := by
  have hne : w ++ x ≠ [] := fun h => hw (List.append_eq_nil_iff.1 h).1
  have htake : (⟨w ++ x, p⟩ : Reader).next mode = (⟨w ++ x, p⟩ : Reader).take kind w.length := by
    cases hwx : w ++ x with
    | nil => exact absurd hwx hne
    | cons c cs =>
      rw [hwx] at h
      simp only [next, h]
  rw [htake, take, List.take_left, List.drop_left]

theorem next_eof {r : Reader} (mode : Mode) (h : r.rest = []) :
    (r.next mode).1.kind = .eof ∧ (r.next mode).1.span = .empty r.position.offset := by
  obtain ⟨rest, p⟩ := r
  cases h
  exact ⟨rfl, rfl⟩

theorem Yields.kind_isLexed {r r' : Reader} {mode : Mode} {t : Token} (h : r.Yields mode t r') :
    t.kind.isLexed = true := by
  have hrest := h.rest
  cases ht : t.text with
  | nil => exact absurd ht h.text_ne
  | cons c cs =>
    have hk := Lexeme.scan_kind mode c (cs ++ r'.rest)
    rw [← List.cons_append, ← ht, ← h.rest, h.scan] at hk
    exact hk

/-! ## Reading several tokens -/

/-- Reading some tokens leads from a place and a mode to another. -/
inductive Reads : Reader → Mode → List Token → Reader → Mode → Prop where
  | nil (r : Reader) (mode : Mode) : Reads r mode [] r mode
  | cons {r r' : Reader} {mode mode' : Mode} {ts : List Token} (h : r.rest ≠ [])
      (hts : Reads (r.next mode).2 (mode.next (r.next mode).1.kind) ts r' mode') :
      Reads r mode ((r.next mode).1 :: ts) r' mode'

theorem tokens_nil {r : Reader} (mode : Mode) (h : r.rest = []) :
    r.tokens mode = ⟨[], (r.next mode).1⟩ := by
  rw [tokens, dif_pos h]

theorem tokens_cons {r : Reader} (mode : Mode) (h : r.rest ≠ []) :
    r.tokens mode =
      ⟨(r.next mode).1 :: ((r.next mode).2.tokens (mode.next (r.next mode).1.kind)).tokens,
        ((r.next mode).2.tokens (mode.next (r.next mode).1.kind)).eof⟩ := by
  rw [tokens, dif_neg h]

namespace Reads

variable {r r' r'' : Reader} {mode mode' mode'' : Mode} {ts us : List Token}

theorem trans (h : Reads r mode ts r' mode') (h' : Reads r' mode' us r'' mode'') :
    Reads r mode (ts ++ us) r'' mode'' := by
  induction h with
  | nil r mode => exact h'
  | cons hne _ ih => exact .cons hne (ih h')

theorem cons_of_next {t : Token} (h : r.rest ≠ []) (hnext : r.next mode = (t, r'))
    (hts : Reads r' (mode.next t.kind) ts r'' mode'') : Reads r mode (t :: ts) r'' mode'' := by
  have ht : (r.next mode).1 = t := by rw [hnext]
  have hr : (r.next mode).2 = r' := by rw [hnext]
  subst ht hr
  exact .cons h hts

theorem tokens_eq (h : Reads r mode ts r' mode') :
    (r.tokens mode).tokens = ts ++ (r'.tokens mode').tokens ∧
      (r.tokens mode).eof = (r'.tokens mode').eof := by
  induction h with
  | nil r mode => exact ⟨rfl, rfl⟩
  | cons hne _ ih =>
    rw [tokens_cons _ hne]
    exact ⟨congrArg _ ih.1, ih.2⟩

theorem mode_eq (h : Reads r mode ts r' mode') :
    mode' = ts.foldl (fun m t => m.next t.kind) mode := by
  induction h with
  | nil r mode => rfl
  | cons _ _ ih => exact ih

/-- The characters of the tokens. -/
def textOf (ts : List Token) : Text := ts.flatMap (·.text)

theorem rest_eq (h : Reads r mode ts r' mode') : r.rest = textOf ts ++ r'.rest := by
  induction h with
  | nil r mode => rfl
  | cons hne _ ih =>
    rw [(yields_next _ hne).rest, ih, textOf, textOf, List.flatMap_cons, List.append_assoc]

theorem textOf_cons (t : Token) (ts : List Token) : textOf (t :: ts) = t.text ++ textOf ts :=
  List.flatMap_cons

theorem offset_eq (h : Reads r mode ts r' mode') :
    r'.position.offset = r.position.offset + (textOf ts).byteSize := by
  induction h with
  | nil r mode => rfl
  | @cons r _ mode _ ts hne _ ih =>
    have hy := yields_next mode hne
    rw [ih, hy.offset, hy.stop, textOf, textOf, List.flatMap_cons, Text.byteSize_append,
      Nat.add_assoc]

theorem kind_isLexed (h : Reads r mode ts r' mode') : ∀ t ∈ ts, t.kind.isLexed = true := by
  induction h with
  | nil r mode => exact List.forall_mem_nil _
  | cons hne _ ih => exact List.forall_mem_cons.2 ⟨(yields_next _ hne).kind_isLexed, ih⟩

/-- A span is as long as the text of its token, which is not empty. -/
theorem sized (h : Reads r mode ts r' mode') :
    ∀ t ∈ ts, t.text ≠ [] ∧ t.span.stop = t.span.start + t.text.byteSize := by
  induction h with
  | nil r mode => exact List.forall_mem_nil _
  | @cons r _ mode _ _ hne _ ih =>
    have hy := yields_next mode hne
    exact List.forall_mem_cons.2 ⟨⟨hy.text_ne, by rw [hy.stop, hy.start]⟩, ih⟩

theorem split (h : Reads r mode (ts ++ us) r'' mode'') :
    ∃ r' mode', Reads r mode ts r' mode' ∧ Reads r' mode' us r'' mode'' := by
  induction ts generalizing r mode with
  | nil => exact ⟨r, mode, .nil r mode, h⟩
  | cons t ts ih =>
    cases h with
    | cons hne h =>
      obtain ⟨r', mode', h₁, h₂⟩ := ih h
      exact ⟨r', mode', .cons hne h₁, h₂⟩

/-- The last token is read in front of what is left. -/
theorem scan_last (h : Reads r mode ts r' mode') : ∀ t ∈ ts.getLast?,
    t.text ≠ [] ∧ ∃ m, Lexeme.scan m (t.text ++ r'.rest) = (t.kind, t.text.length) := by
  induction h with
  | nil r mode => rintro t ⟨⟩
  | @cons r r' mode mode' ts hne h ih =>
    intro t ht
    cases ts with
    | nil =>
      cases h
      cases ht
      have hy := yields_next mode hne
      exact ⟨hy.text_ne, mode, hy.rest ▸ hy.scan⟩
    | cons u us => exact ih t (by rwa [List.getLast?_cons_cons] at ht)

/-- The mode depends on the last significant token only. -/
theorem mode_eq_after (h : Reads r mode ts r' mode') :
    mode' = match ts.reverse.find? fun t => !t.kind.isTrivia with
      | some t => Mode.after t.kind
      | none => mode := by
  induction h with
  | nil r mode => rfl
  | @cons r r' mode mode' ts hne h ih =>
    rw [ih, List.reverse_cons, List.find?_append]
    cases ts.reverse.find? fun t => !t.kind.isTrivia with
    | some t => rfl
    | none =>
      rw [Mode.next]
      by_cases ht : (r.next mode).1.kind.isTrivia = true
      · simp [ht]
      · simp [ht]

end Reads

/-- Every place between two tokens is reached. -/
theorem exists_reads {r : Reader} {mode : Mode} {ts us : List Token}
    (h : (r.tokens mode).tokens = ts ++ us) :
    ∃ r' mode', Reads r mode ts r' mode' ∧ (r'.tokens mode').tokens = us := by
  induction ts generalizing r mode with
  | nil => exact ⟨r, mode, .nil r mode, h⟩
  | cons t ts ih =>
    by_cases hne : r.rest = []
    · rw [tokens_nil mode hne] at h
      cases h
    · rw [tokens_cons mode hne] at h
      obtain ⟨rfl, htail⟩ := List.cons.inj h
      obtain ⟨r', mode', hr, hus⟩ := ih htail
      exact ⟨r', mode', .cons hne hr, hus⟩

theorem tokens_eq_nil {r : Reader} {mode : Mode} (h : (r.tokens mode).tokens = []) :
    r.rest = [] := by
  by_contra hne
  rw [tokens_cons mode hne] at h
  cases h

/-- Reading comes to the end of the text. -/
theorem reads_tokens (r : Reader) (mode : Mode) :
    ∃ r' mode', Reads r mode (r.tokens mode).tokens r' mode' ∧ r'.rest = [] := by
  obtain ⟨r', mode', h, hnil⟩ := exists_reads (r := r) (List.append_nil (r.tokens mode).tokens).symm
  exact ⟨r', mode', h, tokens_eq_nil hnil⟩

end Reader

/-! ## The same characters elsewhere -/

/-- A token of the same kind and text, moved by a distance. -/
structure Token.Moved (δ : Int) (t u : Token) : Prop where
  kind : u.kind = t.kind
  text : u.text = t.text
  start : (u.span.start : Int) = t.span.start + δ
  stop : (u.span.stop : Int) = t.span.stop + δ

theorem Token.Moved.span {δ : Int} {t u : Token} (h : t.Moved δ u) : u.span = t.span.shift δ :=
  (Span.shift_eq h.start h.stop).symm

namespace Reader

theorem next_moved {r s : Reader} {δ : Int} (mode : Mode) (hrest : s.rest = r.rest)
    (hoff : (s.position.offset : Int) = r.position.offset + δ) :
    (r.next mode).1.Moved δ (s.next mode).1 ∧ (s.next mode).2.rest = (r.next mode).2.rest ∧
      ((s.next mode).2.position.offset : Int) = (r.next mode).2.position.offset + δ := by
  by_cases hne : r.rest = []
  · obtain ⟨rest, p⟩ := r
    obtain ⟨rest', q⟩ := s
    cases hne
    cases hrest
    refine ⟨⟨rfl, rfl, hoff, hoff⟩, rfl, hoff⟩
  · have hr := yields_next mode hne
    have hs := yields_next mode (r := s) (by rwa [hrest])
    have hscan := hs.scan.symm.trans (hrest ▸ hr.scan)
    rw [Prod.mk.injEq] at hscan
    have htext := List.append_inj (hs.rest.symm.trans (hrest.trans hr.rest)) hscan.2
    refine ⟨⟨hscan.1, htext.1, ?_, ?_⟩, htext.2, ?_⟩
    · rw [hs.start, hr.start, hoff]
    · rw [hs.stop, hr.stop, htext.1]
      omega
    · rw [hs.offset, hr.offset, hs.stop, hr.stop, htext.1]
      omega

theorem Reads.moved {r r' s : Reader} {mode mode' : Mode} {ts : List Token} {δ : Int}
    (h : Reads r mode ts r' mode') (hrest : s.rest = r.rest)
    (hoff : (s.position.offset : Int) = r.position.offset + δ) :
    ∃ us s', Reads s mode us s' mode' ∧ List.Forall₂ (Token.Moved δ) ts us ∧
      s'.rest = r'.rest ∧ (s'.position.offset : Int) = r'.position.offset + δ := by
  induction h generalizing s with
  | nil r mode => exact ⟨[], s, .nil s mode, .nil, hrest, hoff⟩
  | @cons r r' mode mode' ts hne _ ih =>
    obtain ⟨hnext, hrest', hoff'⟩ := next_moved mode hrest hoff
    obtain ⟨us, s', hus, hall, h₁, h₂⟩ := ih hrest' hoff'
    refine ⟨_, s', .cons (by rwa [hrest]) ?_, .cons hnext hall, h₁, h₂⟩
    rwa [hnext.kind]

/-- **The same characters give the same tokens wherever they stand.** -/
theorem tokens_moved {r s : Reader} {δ : Int} (mode : Mode) (hrest : s.rest = r.rest)
    (hoff : (s.position.offset : Int) = r.position.offset + δ) :
    List.Forall₂ (Token.Moved δ) (r.tokens mode).tokens (s.tokens mode).tokens ∧
      (r.tokens mode).eof.Moved δ (s.tokens mode).eof := by
  obtain ⟨hnext, hrest', hoff'⟩ := next_moved mode hrest hoff
  by_cases hne : r.rest = []
  · rw [tokens_nil mode hne, tokens_nil mode (hrest.trans hne)]
    exact ⟨.nil, hnext⟩
  · have hlt := next_rest_length_lt mode hne
    have ih := tokens_moved (mode.next (r.next mode).1.kind) hrest' hoff'
    rw [tokens_cons mode hne, tokens_cons mode (by rwa [hrest]), hnext.kind]
    exact ⟨.cons hnext ih.1, ih.2⟩
termination_by r.rest.length

/-! ## Changes behind a line end or a comment -/

/-- The text of the tokens is sealed off from a text that follows. -/
def SealedFrom (ts : List Token) (y : Text) : Prop :=
  ∀ t ∈ ts.getLast?, Lexeme.Seals t.text y

theorem SealedFrom.tail {t : Token} {ts : List Token} {y : Text} (h : SealedFrom (t :: ts) y) :
    SealedFrom ts y := by
  intro u hu
  refine h u ?_
  rw [List.getLast?_cons, Option.mem_def.1 hu]
  rfl

theorem not_unstopped_textOf {ts : List Token} {y : Text} (hne : ts ≠ []) (h : SealedFrom ts y) :
    ¬ Unstopped (Reads.textOf ts) := by
  intro hu
  have hlast := h _ (List.getLast?_eq_some_getLast hne)
  refine Lexeme.not_unstopped_of_seals hlast fun c hc => hu c ?_
  exact List.mem_flatMap.2 ⟨_, List.getLast_mem hne, hc⟩

/-- A token in front of other characters, where it is still the next token. -/
theorem Reads.cons_of_scan {r r' : Reader} {mode mode' : Mode} {ts : List Token} {y : Text}
    (hne : r.rest ≠ []) (hscan : Lexeme.scan mode ((r.next mode).1.text ++ y) =
      ((r.next mode).1.kind, (r.next mode).1.text.length))
    (hts : Reads ⟨y, (r.next mode).2.position⟩ (mode.next (r.next mode).1.kind) ts r' mode') :
    Reads ⟨(r.next mode).1.text ++ y, r.position⟩ mode ((r.next mode).1 :: ts) r' mode' := by
  -- the token is made of its characters and the place where it starts, both as before
  have hyield := yields_next mode hne
  have hold := next_append r.position hyield.text_ne (hyield.rest ▸ hyield.scan)
  have hr : (⟨(r.next mode).1.text ++ (r.next mode).2.rest, r.position⟩ : Reader) = r := by
    rw [← hyield.rest]
  rw [hr] at hold
  have hpos : (r.next mode).2.position = r.position.advance (r.next mode).1.text :=
    congrArg (fun p => p.2.position) hold
  rw [hpos] at hts
  refine cons_of_next (fun h => hyield.text_ne (List.append_eq_nil_iff.1 h).1) ?_ hts
  refine (next_append r.position hyield.text_ne hscan).trans ?_
  exact Prod.ext (congrArg Prod.fst hold).symm rfl

/-- **Tokens up to a line end or a closed comment do not depend on what follows.** -/
theorem Reads.change {r r' : Reader} {mode mode' : Mode} {ts : List Token}
    (h : Reads r mode ts r' mode') {y : Text} (hy : SealedFrom ts y) :
    Reads ⟨Reads.textOf ts ++ y, r.position⟩ mode ts ⟨y, r'.position⟩ mode' := by
  induction h with
  | nil r mode => exact .nil _ _
  | @cons r r' mode mode' ts hne hts ih =>
    have hyield := yields_next mode hne
    have ih := ih hy.tail
    have hscan : Lexeme.scan mode ((r.next mode).1.text ++ (Reads.textOf ts ++ y)) =
        ((r.next mode).1.kind, (r.next mode).1.text.length) := by
      refine Lexeme.scan_append_eq (hyield.rest ▸ hyield.scan) hyield.text_ne ?_
      by_cases hts' : ts = []
      · subst hts'
        exact .inr (hy _ rfl)
      · rw [hts.rest_eq]
        exact .inl (Lexeme.commonStop_append (not_unstopped_textOf hts' hy.tail) _ _)
    rw [Reads.textOf_cons, List.append_assoc]
    exact .cons_of_scan hne hscan ih

/-- A block comment with something behind it has its closing mark. -/
theorem Reads.closed {r r' : Reader} {mode mode' : Mode} {ts : List Token}
    (h : Reads r mode ts r' mode') (hne : r'.rest ≠ []) :
    ∀ t ∈ ts, t.kind = .blockComment → isClosedComment t.text = true := by
  induction h with
  | nil r mode => exact List.forall_mem_nil _
  | @cons r r' mode mode' ts hr hts ih =>
    refine List.forall_mem_cons.2 ⟨fun hk => ?_, ih hne⟩
    have hy := yields_next mode hr
    have hscan := hy.scan
    rw [hy.rest, hk] at hscan
    have hrest : (r.next mode).2.rest ≠ [] := by
      rw [hts.rest_eq]
      simp [hne]
    obtain ⟨m, hm, htail⟩ := Lexeme.blockComment_cases hscan hy.text_ne
    have hsuffix := Lexeme.commentTailLength_suffix htail hrest
    have hsize : 2 ≤ Text.byteSize m := by
      obtain ⟨m', rfl⟩ := hsuffix
      rw [Text.byteSize_append]
      exact Nat.le_add_left 2 _
    rw [isClosedComment, hm, Bool.and_eq_true, decide_eq_true_eq, Text.byteSize_cons,
      Text.byteSize_cons, List.isSuffixOf_iff_suffix]
    refine ⟨?_, hsuffix.trans ⟨['\\', '*'], rfl⟩⟩
    have h₁ : Char.utf8Size '\\' = 1 := rfl
    have h₂ : Char.utf8Size '*' = 1 := rfl
    omega

end Reader

/-! ## Reading by recursion on a bound -/

/-- Reads at most `n` tokens. -/
def Reader.tokensWithin : Nat → Reader → Mode → List Token
  | 0, _, _ => []
  | n + 1, r, mode =>
    if r.rest = [] then []
    else (r.next mode).1 :: tokensWithin n (r.next mode).2 (mode.next (r.next mode).1.kind)

theorem Reader.tokensWithin_eq {n : Nat} {r : Reader} (mode : Mode) (h : r.rest.length ≤ n) :
    r.tokensWithin n mode = (r.tokens mode).tokens := by
  induction n generalizing r mode with
  | zero =>
    rw [tokens_nil mode (List.length_eq_zero_iff.1 (Nat.le_zero.1 h))]
    rfl
  | succ n ih =>
    rw [tokensWithin]
    split_ifs with hr
    · rw [tokens_nil mode hr]
    · have := next_rest_length_lt mode hr
      rw [tokens_cons mode hr, ih _ (by omega)]

/-- A text has at most as many tokens as characters. -/
theorem lex_eq_tokensWithin (text : Text) :
    lex text = (Reader.ofText text).tokensWithin text.length .statementStart :=
  (Reader.tokensWithin_eq .statementStart (Nat.le_refl _)).symm

end LpFormat
