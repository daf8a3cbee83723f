import LpFormat.Proofs.Token.Reading

/-!
# Reading again from a token

* `Text.lineEnds`, `Text.lineEndsBefore`, `Text.lineStart`: line ends as spans of a text, and the
  start of a line;
* `Text.CleanCut`: a cut with no carriage return and line feed on its two sides;
  `Text.lineEndsFrom_append`, `Position.advance_append`, **`Lexeme.cleanCut_of_scan`**: what is
  counted on both sides adds up, and every token ends with such a cut;
* `Position.advance_line`, `Position.advance_column`: lines and columns by line ends;
* `Mode.behind`, `Reader.Reads.resume_eq`: the mode and the place behind some tokens;
* **`tokenize_resume`**: every token is read again from its start alone.
-/

namespace LpFormat

/-! ## Line ends -/

namespace Text

/-- The line ends of a text that starts at an offset. A carriage return with a line feed behind it
is one line end, and so is either of them alone. -/
def lineEndsFrom (offset : Nat) : Text → List Span
  | [] => []
  | '\r' :: '\n' :: cs => ⟨offset, offset + 2⟩ :: lineEndsFrom (offset + 2) cs
  | c :: cs =>
    if isLineEnd c then ⟨offset, offset + 1⟩ :: lineEndsFrom (offset + 1) cs
    else lineEndsFrom (offset + c.utf8Size) cs

/-- The line ends of a text. -/
def lineEnds (text : Text) : List Span := text.lineEndsFrom 0

/-- The line ends in front of an offset. -/
def lineEndsBefore (text : Text) (offset : Nat) : List Span :=
  text.lineEnds.filter fun e => decide (e.stop ≤ offset)

/-- Where the line of an offset starts: behind the last line end in front of it. -/
def lineStart (text : Text) (offset : Nat) : Nat :=
  ((text.lineEndsBefore offset).getLast?.map Span.stop).getD 0

/-- The cut between two texts parts no carriage return from a line feed. -/
def CleanCut (u v : Text) : Prop := u.getLast? = some '\r' → v.head? ≠ some '\n'

theorem CleanCut.tail {c : Char} {u v : Text} (h : CleanCut (c :: u) v) : CleanCut u v := by
  intro hu
  refine h ?_
  rw [List.getLast?_cons, hu]
  rfl

theorem lineEndsFrom_cons (offset : Nat) {c : Char} {cs : Text}
    (h : c = '\r' → cs.head? ≠ some '\n') :
    lineEndsFrom offset (c :: cs) =
      if isLineEnd c then ⟨offset, offset + 1⟩ :: lineEndsFrom (offset + 1) cs
      else lineEndsFrom (offset + c.utf8Size) cs := by
  rw [lineEndsFrom]
  rintro cs' rfl rfl
  exact h rfl rfl

theorem utf8Size_of_isLineEnd {c : Char} (h : isLineEnd c = true) : c.utf8Size = 1 := by
  rw [isLineEnd, Bool.or_eq_true, beq_iff_eq, beq_iff_eq] at h
  rcases h with rfl | rfl <;> rfl

theorem byteSize_return_lineFeed (cs : Text) : byteSize ('\r' :: '\n' :: cs) = 2 + byteSize cs := by
  rw [byteSize_cons, byteSize_cons, ← Nat.add_assoc]
  rfl

/-- Line ends on the two sides of a clean cut add up. -/
theorem lineEndsFrom_append {u v : Text} (offset : Nat) (h : CleanCut u v) :
    lineEndsFrom offset (u ++ v) =
      lineEndsFrom offset u ++ lineEndsFrom (offset + byteSize u) v := by
  have hcons {c : Char} {cs : Text} (hc : ∀ cs', c = '\r' → cs = '\n' :: cs' → False)
      (h : CleanCut (c :: cs) v) : c = '\r' → (cs ++ v).head? ≠ some '\n' := by
    rintro rfl
    cases cs with
    | nil => exact h rfl
    | cons d cs =>
      rintro ⟨⟩
      exact hc cs rfl rfl
  fun_induction lineEndsFrom offset u with
  | case1 => rfl
  | case2 offset cs ih =>
    rw [List.cons_append, List.cons_append, lineEndsFrom, ih h.tail.tail, List.cons_append,
      byteSize_return_lineFeed, Nat.add_assoc]
  | case3 offset c cs hc hend ih =>
    rw [List.cons_append, lineEndsFrom_cons offset (hcons hc h), if_pos hend, ih h.tail,
      List.cons_append, byteSize_cons, utf8Size_of_isLineEnd hend, Nat.add_assoc]
  | case4 offset c cs hc hend ih =>
    rw [List.cons_append, lineEndsFrom_cons offset (hcons hc h), if_neg hend, ih h.tail,
      byteSize_cons, Nat.add_assoc]

theorem bounds_of_mem_lineEndsFrom {u : Text} {offset : Nat} {e : Span}
    (h : e ∈ lineEndsFrom offset u) :
    offset ≤ e.start ∧ e.start < e.stop ∧ e.stop ≤ offset + byteSize u := by
  fun_induction lineEndsFrom offset u with
  | case1 => cases h
  | case2 offset cs ih =>
    rw [byteSize_return_lineFeed]
    rcases List.mem_cons.1 h with rfl | h
    · exact ⟨Nat.le_refl _, by simp only; omega, by simp only; omega⟩
    · have := ih h
      omega
  | case3 offset c cs hc hend ih =>
    rw [byteSize_cons, utf8Size_of_isLineEnd hend]
    rcases List.mem_cons.1 h with rfl | h
    · exact ⟨Nat.le_refl _, by simp only; omega, by simp only; omega⟩
    · have := ih h
      omega
  | case4 offset c cs hc hend ih =>
    rw [byteSize_cons]
    have := ih h
    omega

/-- The line ends in front of a clean cut are those of the text in front of it, and none of the
others begins before the cut. -/
theorem lineEndsBefore_append {u v : Text} (h : CleanCut u v) :
    (u ++ v).lineEndsBefore (byteSize u) = u.lineEnds ∧
      ∀ e ∈ (u ++ v).lineEnds, e.stop ≤ byteSize u ∨ byteSize u ≤ e.start := by
  have hsplit : (u ++ v).lineEnds = u.lineEnds ++ lineEndsFrom (byteSize u) v := by
    rw [lineEnds, lineEndsFrom_append 0 h, Nat.zero_add]
    rfl
  have hbefore : ∀ e ∈ u.lineEnds, e.stop ≤ byteSize u := by
    intro e he
    have := bounds_of_mem_lineEndsFrom he
    omega
  have hbehind : ∀ e ∈ lineEndsFrom (byteSize u) v, byteSize u ≤ e.start ∧ e.start < e.stop := by
    intro e he
    have := bounds_of_mem_lineEndsFrom he
    omega
  constructor
  · rw [lineEndsBefore, hsplit, List.filter_append,
      List.filter_eq_self.2 fun e he => decide_eq_true (hbefore e he),
      List.filter_eq_nil_iff.2 fun e he => ?_, List.append_nil]
    have := hbehind e he
    simp only [decide_eq_true_eq]
    omega
  · rw [hsplit]
    exact List.forall_mem_append.2 ⟨fun e he => .inl (hbefore e he),
      fun e he => .inr (hbehind e he).1⟩

end Text

/-! ## Lines and columns -/

namespace Position

/-- Whether a carriage return came right before matters to a line feed only. -/
theorem advanceFrom_eq (b : Bool) (p : Position) {v : Text} (hv : v.head? ≠ some '\n') :
    p.advanceFrom b v = p.advance v := by
  cases v with
  | nil => rfl
  | cons c v =>
    have hc (b : Bool) : ¬ (c = '\n' ∧ b = true) := by
      rintro ⟨rfl, -⟩
      exact hv rfl
    rw [advance, advanceFrom, advanceFrom, if_neg (hc b), if_neg (hc false)]

theorem advanceFrom_append (b : Bool) (p : Position) (u v : Text) :
    p.advanceFrom b (u ++ v) =
      (p.advanceFrom b u).advanceFrom ((u.getLast?.map (· == '\r')).getD b) v := by
  induction u generalizing b p with
  | nil => rfl
  | cons c u ih =>
    have hlast (b' : Bool) (hb : b' = (c == '\r')) :
        (u.getLast?.map (· == '\r')).getD b' =
          (((c :: u).getLast?).map (· == '\r')).getD b := by
      rw [List.getLast?_cons, hb]
      cases u.getLast? <;> rfl
    rw [List.cons_append, advanceFrom, advanceFrom]
    split_ifs with hfeed hend
    · rw [ih, hlast false (by rw [hfeed.1]; rfl)]
    · rw [ih, hlast _ rfl]
    · rw [ih, hlast false (by simpa using fun h => hend (.inr h))]

/-- Moving past both sides of a clean cut is moving past one and then the other. -/
theorem advance_append (p : Position) {u v : Text} (h : Text.CleanCut u v) :
    p.advance (u ++ v) = (p.advance u).advance v := by
  rw [advance, advanceFrom_append]
  cases hlast : u.getLast? with
  | none => rfl
  | some c =>
    by_cases hc : c = '\r'
    · exact advanceFrom_eq _ _ (h (hc ▸ hlast))
    · have hfalse : (c == '\r') = false := beq_eq_false_iff_ne.2 hc
      rw [Option.map_some, Option.getD_some, hfalse]
      rfl

theorem advance_return_lineFeed (p : Position) (cs : Text) :
    p.advance ('\r' :: '\n' :: cs) = (⟨p.offset + 2, p.line + 1, 0⟩ : Position).advance cs := rfl

theorem advance_cons (p : Position) {c : Char} {cs : Text}
    (h : ∀ cs', c = '\r' → cs = '\n' :: cs' → False) :
    p.advance (c :: cs) =
      if isLineEnd c then (⟨p.offset + 1, p.line + 1, 0⟩ : Position).advance cs
      else (⟨p.offset + c.utf8Size, p.line, p.column + c.utf8Size⟩ : Position).advance cs := by
  have hend : isLineEnd c = true ↔ c = '\n' ∨ c = '\r' := by
    rw [isLineEnd, Bool.or_eq_true, beq_iff_eq, beq_iff_eq, or_comm]
  have hhead : c = '\r' → cs.head? ≠ some '\n' := by
    intro hc hcs
    obtain ⟨cs', rfl⟩ := List.head?_eq_some_iff.1 hcs
    exact h cs' hc rfl
  rw [advance, advanceFrom, if_neg (by simp)]
  refine if_ctx_congr hend.symm (fun hc => ?_) fun _ => rfl
  rw [Text.utf8Size_of_isLineEnd hc]
  rcases hend.1 hc with rfl | rfl
  · rfl
  · exact advanceFrom_eq _ _ (hhead rfl)

/-- Each line end moves to the next line. -/
theorem advance_line (p : Position) (u : Text) :
    (p.advance u).line = p.line + (Text.lineEndsFrom p.offset u).length := by
  generalize ho : p.offset = offset
  fun_induction Text.lineEndsFrom offset u generalizing p with
  | case1 => rfl
  | case2 offset cs ih =>
    rw [advance_return_lineFeed, ih _ (congrArg (· + 2) ho), List.length_cons]
    simp only
    omega
  | case3 offset c cs hc hend ih =>
    rw [advance_cons p hc, if_pos hend, ih _ (congrArg (· + 1) ho), List.length_cons]
    simp only
    omega
  | case4 offset c cs hc hend ih =>
    rw [advance_cons p hc, if_neg hend, ih _ (congrArg (· + c.utf8Size) ho)]

theorem getD_getLast?_cons (e : Span) (es : List Span) (start : Nat) :
    ((e :: es).getLast?.map Span.stop).getD start = (es.getLast?.map Span.stop).getD e.stop := by
  rw [List.getLast?_cons]
  cases es.getLast? <;> rfl

/-- The column is the distance from the last line end, or from the start of the line. -/
theorem advance_column (p : Position) (u : Text) {start : Nat} (h : start + p.column = p.offset) :
    ((Text.lineEndsFrom p.offset u).getLast?.map Span.stop).getD start + (p.advance u).column =
      (p.advance u).offset := by
  generalize ho : p.offset = offset at h ⊢
  fun_induction Text.lineEndsFrom offset u generalizing p start with
  | case1 => exact h.trans ho.symm
  | case2 offset cs ih =>
    rw [advance_return_lineFeed, getD_getLast?_cons]
    exact ih _ (congrArg (· + 2) ho) rfl
  | case3 offset c cs hc hend ih =>
    rw [advance_cons p hc, if_pos hend, getD_getLast?_cons]
    exact ih _ (congrArg (· + 1) ho) rfl
  | case4 offset c cs hc hend ih =>
    rw [advance_cons p hc, if_neg hend]
    refine ih _ (congrArg (· + c.utf8Size) ho) ?_
    rw [← h, Nat.add_assoc]

end Position

/-! ## Every token ends with a clean cut -/

namespace Lexeme

/-- **No token ends between a carriage return and a line feed.** -/
theorem cleanCut_of_scan {mode : Mode} {w x : Text} {kind : Kind} (hw : w ≠ [])
    (h : scan mode (w ++ x) = (kind, w.length)) : Text.CleanCut w x := by
  intro hlast
  obtain ⟨c, w, rfl⟩ := List.exists_cons_of_ne_nil hw
  have hmem : '\r' ∈ c :: w := List.mem_of_getLast? hlast
  rw [List.cons_append] at h
  by_cases hc : isStop c = true
  · rcases isStop_iff.1 hc with rfl | rfl | rfl
    · by_cases hwx : (w ++ x).head? = some '\n'
      · -- a line feed right behind belongs to the line end, which does not end with the return then
        obtain ⟨v, hv⟩ := List.head?_eq_some_iff.1 hwx
        rw [hv, scan_return_lineFeed, Prod.mk.injEq, List.length_cons] at h
        obtain ⟨d, rfl⟩ := List.length_eq_one_iff.1 (Nat.succ.inj h.2).symm
        obtain ⟨rfl, -⟩ := List.cons.inj hv
        cases hlast
      · rw [scan_return mode hwx, Prod.mk.injEq, List.length_cons] at h
        obtain rfl := List.length_eq_zero_iff.1 (Nat.succ.inj h.2).symm
        exact hwx
    · rw [scan_lineFeed, Prod.mk.injEq, List.length_cons] at h
      obtain rfl := List.length_eq_zero_iff.1 (Nat.succ.inj h.2).symm
      cases hlast
    · by_cases hwx : (w ++ x).head? = some '*'
      · obtain ⟨v, hv⟩ := List.head?_eq_some_iff.1 hwx
        have hkind : kind = .blockComment := by
          rw [hv, scan_blockComment] at h
          exact (Prod.mk.inj h).1.symm
        subst hkind
        obtain ⟨m, hm, htail⟩ := blockComment_cases (w := '\\' :: w) h hw
        rintro hx
        have hne : x ≠ [] := by
          rintro rfl
          cases hx
        -- the comment ends with its closing mark
        obtain ⟨m', rfl⟩ := commentTailLength_suffix htail hne
        rw [hm, ← List.cons_append, ← List.cons_append,
          List.getLast?_append_of_ne_nil _ (List.cons_ne_nil _ _)] at hlast
        cases hlast
      · rw [scan_lineComment mode hwx, Prod.mk.injEq, List.length_cons, Nat.add_comm 1] at h
        have hrun : w = (w ++ x).takeWhile fun c => !isLineEnd c := by
          rw [List.prefix_iff_eq_take.1 (List.takeWhile_prefix _), Nat.succ.inj h.2, List.take_left]
        rcases List.mem_cons.1 hmem with hfirst | hmem
        · cases hfirst
        · rw [hrun] at hmem
          cases List.mem_takeWhile_imp hmem
  · have := unstopped_of_scan (Bool.not_eq_true _ ▸ hc) h '\r' hmem
    cases this

end Lexeme

namespace Mode

/-- The mode behind some tokens at the start of a text: it depends on the last one that is not
trivia. -/
def behind (before : List Token) : Mode :=
  match before.reverse.find? fun t => !t.kind.isTrivia with
  | some t => after t.kind
  | none => statementStart

end Mode

namespace Reader

theorem Reads.cleanCut {r r' : Reader} {mode mode' : Mode} {ts : List Token}
    (h : Reads r mode ts r' mode') : Text.CleanCut (Reads.textOf ts) r'.rest := by
  rcases List.eq_nil_or_concat ts with rfl | ⟨us, t, rfl⟩
  · intro hlast
    cases hlast
  · obtain ⟨hne, m, hscan⟩ := h.scan_last t (by simp)
    intro hlast
    refine Lexeme.cleanCut_of_scan hne hscan ?_
    rw [← hlast, List.concat_eq_append, Reads.textOf, List.flatMap_append, List.flatMap_singleton,
      List.getLast?_append_of_ne_nil _ hne]

theorem next_position (r : Reader) (mode : Mode) :
    (r.next mode).2.position = r.position.advance (r.next mode).1.text ∧
      (r.next mode).1.span.start = r.position.offset ∧
      (r.next mode).1.line = r.position.line ∧ (r.next mode).1.column = r.position.column := by
  obtain ⟨rest, p⟩ := r
  cases rest with
  | nil => exact ⟨rfl, rfl, rfl, rfl⟩
  | cons c cs =>
    cases hs : Lexeme.scan mode (c :: cs) with
    | mk kind n =>
      simp only [next, hs]
      exact ⟨rfl, rfl, rfl, rfl⟩

/-- Tokens move the place as their characters do all at once. -/
theorem Reads.position_eq {r r' : Reader} {mode mode' : Mode} {ts : List Token}
    (h : Reads r mode ts r' mode') : r'.position = r.position.advance (Reads.textOf ts) := by
  induction h with
  | nil r mode => rfl
  | @cons r r' mode mode' ts hne hts ih =>
    have hy := yields_next mode hne
    have hcut : Text.CleanCut (r.next mode).1.text (Reads.textOf ts) := by
      have hscan := Lexeme.cleanCut_of_scan hy.text_ne (hy.rest ▸ hy.scan)
      intro hlast hhead
      refine hscan hlast ?_
      rw [hts.rest_eq, List.head?_append, hhead]
      rfl
    rw [ih, Reads.textOf_cons, Position.advance_append _ hcut, (next_position r mode).1]

/-- **Reading on from the end of some tokens is reading again from there.** -/
theorem Reads.resume_eq {text : Text} {r : Reader} {mode : Mode} {ts : List Token}
    (h : Reads (.ofText text) .statementStart ts r mode) :
    resume text (Reads.textOf ts).byteSize = r := by
  have hrest : text = Reads.textOf ts ++ r.rest := h.rest_eq
  have hposition : r.position = Position.zero.advance (Reads.textOf ts) := h.position_eq
  rw [resume, hrest, Text.dropBytes_append, Text.takeBytes_append, ← hposition]

/-- The place and the mode in which a token is read, the end of the text included. -/
theorem exists_reads_toList {r : Reader} {mode : Mode} {before after : List Token} {t : Token}
    (h : (r.tokens mode).toList = before ++ t :: after) :
    ∃ r' mode', Reads r mode before r' mode' ∧ (r'.next mode').1 = t := by
  rw [Tokens.toList] at h
  rcases List.eq_nil_or_concat after with rfl | ⟨us, u, rfl⟩
  · obtain ⟨rfl, heof⟩ := List.append_inj' h rfl
    obtain ⟨r', mode', hr, hnil⟩ := r.reads_tokens mode
    refine ⟨r', mode', hr, ?_⟩
    rw [← List.singleton_inj.1 heof, hr.tokens_eq.2, tokens_nil mode' hnil]
  · rw [List.concat_eq_append, ← List.cons_append, ← List.append_assoc] at h
    obtain ⟨r', mode', hr, hus⟩ := exists_reads (List.append_inj' h rfl).1
    refine ⟨r', mode', hr, ?_⟩
    have hne : r'.rest ≠ [] := by
      intro hnil
      rw [tokens_nil mode' hnil] at hus
      cases hus
    rw [tokens_cons mode' hne] at hus
    exact (List.cons.inj hus).1

end Reader

/-- **Every token of a text is read again from its start alone**, in the mode that the last
significant token before it gives, with its line and its column: the number of line ends before it
and the distance from the last of them. No line end goes beyond the start of a token. -/
theorem tokenize_resume (text : Text) {before after : List Token} {t : Token}
    (h : (tokenize text).toList = before ++ t :: after) :
    ((Reader.resume text t.span.start).next (Mode.behind before)).1 = t ∧
      t.line = (text.lineEndsBefore t.span.start).length ∧
      text.lineStart t.span.start + t.column = t.span.start ∧
      ∀ e ∈ text.lineEnds, e.stop ≤ t.span.start ∨ t.span.start ≤ e.start := by
  obtain ⟨r, mode, hr, rfl⟩ := Reader.exists_reads_toList h
  have hmode : mode = Mode.behind before := hr.mode_eq_after
  have hposition : r.position = Position.zero.advance (Reader.Reads.textOf before) := hr.position_eq
  obtain ⟨-, hstart, hline, hcolumn⟩ := Reader.next_position r mode
  have hoffset : r.position.offset = (Reader.Reads.textOf before).byteSize := by
    rw [hposition, Position.advance_offset]
    exact Nat.zero_add _
  have htext : text = Reader.Reads.textOf before ++ r.rest := hr.rest_eq
  obtain ⟨hbefore, hapart⟩ := Text.lineEndsBefore_append hr.cleanCut
  rw [← htext] at hbefore hapart
  rw [hstart, hline, hcolumn, Text.lineStart, hoffset, hbefore, ← hmode, hr.resume_eq]
  refine ⟨rfl, ?_, ?_, hapart⟩
  · rw [hposition, Position.advance_line]
    exact Nat.zero_add _
  · rw [← hoffset, hposition]
    exact Position.advance_column .zero _ rfl

theorem tokenize_toList {text : Text} {before after : List Token} {t : Token}
    (h : lex text = before ++ t :: after) :
    (tokenize text).toList = before ++ t :: (after ++ [(tokenize text).eof]) := by
  rw [Tokens.toList, show (tokenize text).tokens = before ++ t :: after from h, List.append_assoc,
    List.cons_append]

/-- The last word behind a carriage return with a line feed and a blank. -/
theorem tokenize_resume_third :
    (⟨.ident, ⟨6, 7⟩, 1, 3, ['c']⟩ : Token) ∈ lex "a\r\nbb c".toList ∧
      ((Reader.resume "a\r\nbb c".toList 6).next .inline).1 = ⟨.ident, ⟨6, 7⟩, 1, 3, ['c']⟩ ∧
      1 = (Text.lineEndsBefore "a\r\nbb c".toList 6).length := by
  have hlex : lex "a\r\nbb c".toList =
      [⟨.ident, ⟨0, 1⟩, 0, 0, ['a']⟩, ⟨.newline, ⟨1, 3⟩, 0, 1, ['\r', '\n']⟩,
        ⟨.ident, ⟨3, 5⟩, 1, 0, ['b', 'b']⟩, ⟨.whitespace, ⟨5, 6⟩, 1, 2, [' ']⟩] ++
        [⟨.ident, ⟨6, 7⟩, 1, 3, ['c']⟩] := by
    rw [lex_eq_tokensWithin]
    decide +kernel
  obtain ⟨hnext, hline, -, -⟩ := tokenize_resume _ (tokenize_toList hlex)
  exact ⟨hlex ▸ List.mem_concat_self, hnext, hline⟩

end LpFormat
