import LpFormat.Proofs.Parse.Faults

/-!
# Tokens in front of a line end or a closed comment

Tokens look ahead: a keyword over its words, gaps and a colon, a sign over the number or the
infinity behind it, a comment over all up to its closing mark. None of this goes beyond a line end
or the comment itself, so what stands behind these does not matter.

* `tokensBefore`, `Reader.Reads.tokensBefore_eq`: the tokens that start before an offset;
* `Token.Seals`, `Reader.Reads.sealedFrom`: line ends and closed comments;
* **`tokenize_sealed`**: the tokens of two texts that are alike up to the end of such a token.
-/

namespace LpFormat

/-- The tokens of a text that start before an offset, the end of the text included. -/
def tokensBefore (text : Text) (offset : Nat) : List Token :=
  (tokenize text).toList.filter fun t => decide (t.span.start < offset)

/-- Line ends and comments with their closing mark. -/
def Token.Seals (t : Token) : Prop :=
  t.kind = .newline ∨ t.kind = .blockComment ∧ isClosedComment t.text = true

/-- The end of the text does not seal it. -/
theorem Token.Seals.mem_lex {text : Text} {t : Token} (h : t.Seals)
    (ht : t ∈ (tokenize text).toList) : t ∈ lex text := by
  refine (List.mem_append.1 ht).resolve_right fun hlast => ?_
  have heof : t.kind = .eof := by
    rw [List.mem_singleton.1 hlast]
    exact Reader.tokens_eof
  rw [Token.Seals, heof] at h
  simp at h

namespace Reader

/-- No token starts before the place where reading begins. -/
theorem le_start_of_mem_tokens {r : Reader} {mode : Mode} {t : Token}
    (h : t ∈ (r.tokens mode).toList) : r.position.offset ≤ t.span.start := by
  obtain ⟨r', mode', hreads, hnil⟩ := r.reads_tokens mode
  have hspans := hreads.adjoin
  rcases List.mem_append.1 h with h | h
  · exact (hspans.mem (List.mem_map_of_mem h)).1
  · obtain rfl := List.mem_singleton.1 h
    rw [hreads.tokens_eq.2, tokens_nil mode' hnil, (next_eof mode' hnil).2]
    exact hspans.le

namespace Reads

variable {text : Text} {r r' : Reader} {mode mode' : Mode} {ts : List Token} {t : Token}

theorem tokensBefore_eq (h : Reads (.ofText text) .statementStart ts r mode) :
    tokensBefore text r.position.offset = ts := by
  have hlist : (tokenize text).toList = ts ++ (r.tokens mode).toList := by
    rw [tokenize, Tokens.toList, h.tokens_eq.1, h.tokens_eq.2, List.append_assoc]
    rfl
  rw [tokensBefore, hlist, List.filter_append, List.filter_eq_self.2, List.filter_eq_nil_iff.2,
    List.append_nil]
  · intro u hu
    simpa using le_start_of_mem_tokens hu
  · intro u hu
    have hstop := (h.adjoin.mem (List.mem_map_of_mem hu)).2.2
    exact decide_eq_true (Nat.lt_of_lt_of_le (h.solid u hu) hstop)

theorem stop_eq_of_last (h : Reads r mode (ts ++ [t]) r' mode') :
    t.span.stop = r'.position.offset := by
  have hspans := h.adjoin
  rw [List.map_append] at hspans
  obtain ⟨_, -, hlast⟩ := Adjoin.append_iff.1 hspans
  exact hlast.2.2

/-- Tokens up to a line end or a closed comment are sealed off, but that a carriage return alone
must stay alone. -/
theorem sealedFrom (h : Reads r mode (ts ++ [t]) r' mode') (ht : t.Seals) {y : Text}
    (hreturn : t.text = ['\r'] → y.head? ≠ some '\n') : SealedFrom (ts ++ [t]) y := by
  intro u hu
  obtain ⟨hne, m, hscan⟩ := h.scan_last u hu
  obtain rfl : t = u := by simpa using hu
  rcases ht with hk | ⟨hk, hclosed⟩
  · rw [hk] at hscan
    exact Lexeme.seals_of_newline hscan hne hreturn
  · rw [hk] at hscan
    obtain ⟨w, hw, -⟩ := Lexeme.blockComment_cases hscan hne
    rw [hw, isClosedComment_iff] at hclosed
    exact .inr (.inr (.inr ⟨w, hw, hclosed⟩))

end Reads

end Reader

/-- **What stands behind a line end or a closed comment does not matter to the tokens before it.**
Two texts that begin with the same bytes up to the end of such a token have the same tokens there,
and these end where the token ends. Only a line feed must not join a carriage return. -/
theorem tokenize_sealed {text text' : Text} {t : Token} (ht : t ∈ (tokenize text).toList)
    (hseals : t.Seals) (hsame : text'.takeBytes t.span.stop = text.takeBytes t.span.stop)
    (hreturn : t.text = ['\r'] → (text'.dropBytes t.span.stop).head? ≠ some '\n') :
    tokensBefore text' t.span.stop = tokensBefore text t.span.stop ∧
      (tokensBefore text' t.span.stop).getLast? = some t ∧
      Adjoin 0 t.span.stop ((tokensBefore text' t.span.stop).map Token.span) := by
  obtain ⟨before, after, hsplit⟩ := List.append_of_mem (hseals.mem_lex ht)
  rw [← List.singleton_append, ← List.append_assoc] at hsplit
  obtain ⟨r, mode, hreads, -⟩ := Reader.exists_reads hsplit
  have hstop := hreads.stop_eq_of_last
  have hoffset : r.position.offset = (Reader.Reads.textOf (before ++ [t])).byteSize :=
    hreads.offset_eq.trans (Nat.zero_add _)
  -- both texts begin with the characters of the tokens up to the one that seals
  have htext : text = Reader.Reads.textOf (before ++ [t]) ++ r.rest := hreads.rest_eq
  have htext' : text' = Reader.Reads.textOf (before ++ [t]) ++ text'.dropBytes t.span.stop := by
    have hcut := Text.takeBytes_append_dropBytes t.span.stop text'
    rw [hsame, htext, hstop, hoffset, Text.takeBytes_append] at hcut
    rw [hstop, hoffset]
    exact hcut.symm
  have hreads' : Reader.Reads (.ofText text') .statementStart (before ++ [t])
      ⟨text'.dropBytes t.span.stop, r.position⟩ mode := by
    have hchange := hreads.change (hreads.sealedFrom hseals hreturn)
    rwa [← htext'] at hchange
  rw [hstop, hreads'.tokensBefore_eq, hreads.tokensBefore_eq]
  exact ⟨rfl, List.getLast?_concat .., hreads.adjoin⟩

/-- A name behind a carriage return alone instead of a plus. -/
theorem tokenize_sealed_return :
    (⟨.newline, ⟨1, 2⟩, 0, 1, ['\r']⟩ : Token) ∈ (tokenize ['x', '\r', '+']).toList ∧
      tokensBefore ['x', '\r', 'y'] 2 = tokensBefore ['x', '\r', '+'] 2 := by
  have hlex : lex ['x', '\r', '+'] = [⟨.ident, ⟨0, 1⟩, 0, 0, ['x']⟩,
      ⟨.newline, ⟨1, 2⟩, 0, 1, ['\r']⟩, ⟨.plus, ⟨2, 3⟩, 1, 0, ['+']⟩] := by
    rw [lex_eq_tokensWithin]
    decide +kernel
  have hmem : (⟨.newline, ⟨1, 2⟩, 0, 1, ['\r']⟩ : Token) ∈ (tokenize ['x', '\r', '+']).toList := by
    refine List.mem_append_left _ ?_
    change _ ∈ lex ['x', '\r', '+']
    rw [hlex]
    decide
  exact ⟨hmem, (tokenize_sealed hmem (.inl rfl) (by decide) (by decide)).1⟩

end LpFormat
