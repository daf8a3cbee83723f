import LpFormat.Proofs.Token.Rules

/-!
# Reading without gaps

From any place of a text, and whatever the modes, each token ends where the next one starts. Error
tokens are as long as they can be.

* `Reader.Stands`: a place in a text; `Reader.after`: the place after some tokens;
* `Reader.StepsOver`: what is read at a place;
* `Reader.Stands.next`, `Reader.Stands.stepsOver`: one token; `Reader.Stands.after`: all of them;
* **`Reader.resume_stepsOver`**: reading from a boundary of a text.
-/

namespace LpFormat

namespace Reader

open Lexeme

/-- A place in a text. -/
def Stands (r : Reader) (text : Text) : Prop :=
  ∃ before, text = before ++ r.rest ∧ r.position.offset = before.byteSize

/-- Reads one token in each of some modes. -/
def after (r : Reader) : List Mode → Reader
  | [] => r
  | mode :: modes => (r.next mode).2.after modes

/-- What is read at a place of a text, whatever the mode: the end of input at the end of the text,
and elsewhere the token up to the next place. No rule applies within an error token. -/
structure StepsOver (r : Reader) (text : Text) (mode : Mode) : Prop where
  eof : (r.next mode).1.kind = .eof ↔ r.position.offset = text.byteSize
  empty : (r.next mode).1.kind = .eof → (r.next mode).1.span = .empty r.position.offset
  nonempty : (r.next mode).1.kind ≠ .eof →
    (r.next mode).1.span.start < (r.next mode).1.span.stop
  start : (r.next mode).1.span.start = r.position.offset
  boundary : text.isBoundary (r.next mode).1.span.stop = true
  slice : text.slice (r.next mode).1.span = (r.next mode).1.text
  next : (r.next mode).2.position.offset = (r.next mode).1.span.stop
  error : (r.next mode).1.kind = .errorToken ↔
    r.position.offset ≠ text.byteSize ∧ ¬ IsLexical (text.dropBytes r.position.offset)
  within : (r.next mode).1.kind = .errorToken → ∀ offset, text.isBoundary offset = true →
    (r.next mode).1.span.start < offset → offset < (r.next mode).1.span.stop →
      ¬ IsLexical (text.dropBytes offset)
  single : (r.next mode).1.kind = .errorToken →
    ∀ mode', ((r.next mode).2.next mode').1.kind ≠ .errorToken

variable {r : Reader} {text : Text}

theorem stands_resume (text : Text) (offset : Nat) : (resume text offset).Stands text := by
  refine ⟨text.takeBytes offset, (Text.takeBytes_append_dropBytes offset text).symm, ?_⟩
  rw [resume, Position.advance_offset]
  exact Nat.zero_add _

theorem next_of_rest_nil (mode : Mode) (h : r.rest = []) :
    r.next mode =
      (⟨.eof, .empty r.position.offset, r.position.line, r.position.column, []⟩, r) := by
  obtain ⟨rest, p⟩ := r
  cases h
  rfl

theorem Stands.next (h : r.Stands text) (mode : Mode) : (r.next mode).2.Stands text := by
  by_cases hne : r.rest = []
  · rwa [next_of_rest_nil mode hne]
  · obtain ⟨before, htext, hoffset⟩ := h
    have hy := yields_next mode hne
    refine ⟨before ++ (r.next mode).1.text, ?_, ?_⟩
    · rw [List.append_assoc, ← hy.rest, htext]
    · rw [hy.offset, hy.stop, hoffset, Text.byteSize_append]

theorem Stands.after (h : r.Stands text) (modes : List Mode) : (r.after modes).Stands text := by
  induction modes generalizing r with
  | nil => exact h
  | cons mode modes ih => exact ih (h.next mode)

theorem Stands.isBoundary (h : r.Stands text) : text.isBoundary r.position.offset = true := by
  obtain ⟨before, htext, hoffset⟩ := h
  exact Text.isBoundary_iff.2 ⟨before, r.rest, htext, hoffset.symm⟩

theorem Stands.dropBytes (h : r.Stands text) : text.dropBytes r.position.offset = r.rest := by
  obtain ⟨before, rfl, hoffset⟩ := h
  rw [hoffset, Text.dropBytes_append]

theorem Stands.at_end_iff (h : r.Stands text) :
    r.position.offset = text.byteSize ↔ r.rest = [] := by
  obtain ⟨before, htext, hoffset⟩ := h
  rw [hoffset, htext, Text.byteSize_append, Nat.left_eq_add, Text.byteSize_eq_zero]

/-- The kind of the next token is that of the rule that applies. -/
theorem next_kind_eq_errorToken_iff (mode : Mode) (h : r.rest ≠ []) :
    (r.next mode).1.kind = .errorToken ↔ startsToken r.rest = false := by
  rw [← scan_eq_errorToken_iff mode, (yields_next mode h).scan]

/-- An error token goes as far as no token starts. -/
theorem next_errorToken {mode : Mode} {c : Char} {cs : Text} (hrest : r.rest = c :: cs)
    (h : (r.next mode).1.kind = .errorToken) :
    (r.next mode).1.text = c :: cs.take (lengthToToken cs) ∧
      (r.next mode).2.rest = cs.drop (lengthToToken cs) := by
  have hne : r.rest ≠ [] := by simp [hrest]
  have hy := yields_next mode hne
  have hscan := hy.scan
  rw [scan_errorToken mode ((next_kind_eq_errorToken_iff mode hne).1 h), hrest, errorLength,
    Prod.mk.injEq] at hscan
  have hsplit := hy.rest
  rw [hrest] at hsplit
  rw [Nat.add_comm] at hscan
  constructor
  · rw [← List.take_succ_cons, hscan.2, hsplit, List.take_left]
  · rw [← List.drop_succ_cons (a := c), hscan.2, hsplit, List.drop_left]

theorem Stands.within_errorToken (h : r.Stands text) {mode : Mode}
    (herr : (r.next mode).1.kind = .errorToken) {offset : Nat}
    (hb : text.isBoundary offset = true) (hlt : (r.next mode).1.span.start < offset)
    (hgt : offset < (r.next mode).1.span.stop) : startsToken (text.dropBytes offset) = false := by
  cases hrest : r.rest with
  | nil =>
    rw [next_of_rest_nil mode hrest] at herr
    cases herr
  | cons c cs =>
    have hy := yields_next mode (r := r) (by simp [hrest])
    obtain ⟨htext, -⟩ := next_errorToken hrest herr
    obtain ⟨before, hbefore, hoffset⟩ := h
    obtain ⟨a, b, hab, rfl⟩ := Text.isBoundary_iff.1 hb
    rw [hy.start, hoffset] at hlt
    rw [hy.stop, hoffset] at hgt
    -- the offset cuts the error token in two
    obtain ⟨m, rfl, hm⟩ := Text.exists_middle (hbefore.symm.trans hab) (by omega)
    rw [Text.byteSize_append] at hlt hgt
    obtain ⟨n, hn, -⟩ := Text.exists_middle (hm.symm.trans hy.rest) (by omega)
    cases m with
    | nil => simp at hlt
    | cons d m =>
      rw [hrest, List.cons_append, List.cons.injEq] at hm
      rw [htext, List.cons_append, List.cons.injEq] at hn
      have hne : n ≠ [] := by
        rintro rfl
        rw [htext, ← hn.1, hn.2, List.append_nil] at hgt
        exact Nat.lt_irrefl _ hgt
      have hlen : m.length < lengthToToken cs := by
        have htake := congrArg List.length hn.2
        have hpos := List.length_pos_iff.2 hne
        rw [List.length_take, List.length_append] at htake
        omega
      rw [hab, Text.dropBytes_append]
      have hdrop := not_startsToken_drop hlen
      rwa [hm.2, List.drop_left] at hdrop

theorem next_after_errorToken {mode : Mode} (h : (r.next mode).1.kind = .errorToken)
    (mode' : Mode) : ((r.next mode).2.next mode').1.kind ≠ .errorToken := by
  cases hrest : r.rest with
  | nil =>
    rw [next_of_rest_nil mode hrest] at h
    cases h
  | cons c cs =>
    obtain ⟨-, hafter⟩ := next_errorToken hrest h
    by_cases hne : (r.next mode).2.rest = []
    · rw [next_of_rest_nil mode' hne]
      exact Kind.noConfusion
    · rw [Ne, next_kind_eq_errorToken_iff mode' hne, hafter,
        startsToken_drop_lengthToToken (hafter ▸ hne)]
      exact Bool.noConfusion

theorem Stands.slice_next (h : r.Stands text) (mode : Mode) :
    text.slice (r.next mode).1.span = (r.next mode).1.text := by
  obtain ⟨before, htext, hoffset⟩ := h
  by_cases hne : r.rest = []
  · rw [next_of_rest_nil mode hne, Text.slice, Span.empty, Nat.sub_self, Text.takeBytes_zero]
  · have hy := yields_next mode hne
    have hspan : (r.next mode).1.span =
        ⟨before.byteSize, before.byteSize + (r.next mode).1.text.byteSize⟩ := by
      rw [← hoffset, ← hy.stop, ← hy.start]
    rw [hspan, htext, hy.rest, ← List.append_assoc, Text.slice_append]

/-- One token, wherever it is read. -/
theorem Stands.stepsOver (h : r.Stands text) (mode : Mode) : r.StepsOver text mode := by
  have hnext : (r.next mode).2.position.offset = (r.next mode).1.span.stop := by
    by_cases hne : r.rest = []
    · rw [next_of_rest_nil mode hne]
      rfl
    · exact (yields_next mode hne).offset
  have hb : text.isBoundary (r.next mode).1.span.stop = true := by
    rw [← hnext]
    exact (h.next mode).isBoundary
  have hwithin : (r.next mode).1.kind = .errorToken → ∀ offset, text.isBoundary offset = true →
      (r.next mode).1.span.start < offset → offset < (r.next mode).1.span.stop →
        ¬ IsLexical (text.dropBytes offset) := by
    intro herr offset hoffset hlt hgt hlex
    rw [isLexical_iff, h.within_errorToken herr hoffset hlt hgt] at hlex
    cases hlex
  by_cases hne : r.rest = []
  · have hend := h.at_end_iff.2 hne
    have hkind : (r.next mode).1.kind = .eof := by rw [next_of_rest_nil mode hne]
    refine ⟨?_, ?_, ?_, ?_, hb, h.slice_next mode, hnext, ?_, hwithin, next_after_errorToken⟩
    · exact iff_of_true hkind hend
    · intro _
      rw [next_of_rest_nil mode hne]
    · exact fun hno => absurd hkind hno
    · rw [next_of_rest_nil mode hne]
      rfl
    · rw [hkind]
      exact iff_of_false Kind.noConfusion fun hno => hno.1 hend
  · have hend : r.position.offset ≠ text.byteSize := fun he => hne (h.at_end_iff.1 he)
    have hy := yields_next mode hne
    have hkind : (r.next mode).1.kind ≠ .eof := by
      intro he
      have hlexed := hy.kind_isLexed
      rw [he] at hlexed
      cases hlexed
    refine ⟨?_, ?_, ?_, hy.start, hb, h.slice_next mode, hnext, ?_, hwithin,
      next_after_errorToken⟩
    · exact iff_of_false hkind hend
    · exact fun he => absurd he hkind
    · intro _
      have hpos : (r.next mode).1.text.byteSize ≠ 0 :=
        fun hzero => hy.text_ne (Text.byteSize_eq_zero.1 hzero)
      rw [hy.start, hy.stop]
      omega
    · rw [next_kind_eq_errorToken_iff mode hne, isLexical_iff, h.dropBytes, Bool.not_eq_true]
      exact ⟨fun hs => ⟨hend, hs⟩, fun hs => hs.2⟩

/-- **From any boundary of a text and in any modes, tokens follow each other without a gap up to the
end of input, an error token is read exactly where no rule and no keyword applies, and it extends
to the next place where one does. Where a token starts, the longest word decides.** -/
theorem resume_stepsOver (text : Text) {offset : Nat} (h : text.isBoundary offset = true) :
    (resume text offset).position.offset = offset ∧
      (∀ (modes : List Mode) (mode : Mode),
        ((resume text offset).after modes).StepsOver text mode) ∧
      ∀ cs : Text,
        (startsToken cs = true ↔ ∃ (p : Pattern) (w : Text), p.Takes w cs) ∧
        (startsToken cs = true → ∃ t, rule? cs = some t ∧ Pattern.Follows cs t) := by
  refine ⟨?_, fun modes mode => ?_, fun cs => ⟨startsToken_iff, fun hs => ?_⟩⟩
  · rw [resume, Position.advance_offset, Text.byteSize_takeBytes_of_isBoundary h]
    exact Nat.zero_add offset
  · exact ((stands_resume text offset).after modes).stepsOver mode
  · obtain ⟨t, ht⟩ := exists_rule?_of_startsToken hs
    exact ⟨t, ht, Pattern.follows_rule? ht⟩

/-- Behind a name, a tilde, a letter beyond ASCII and a tilde are one error token of four bytes. -/
theorem resume_stepsOver_tildes :
    Text.isBoundary ['x', '~', 'é', '~', '3'] 1 = true ∧
      (resume ['x', '~', 'é', '~', '3'] 1).position.offset = 1 ∧
      (resume ['x', '~', 'é', '~', '3'] 1).StepsOver ['x', '~', 'é', '~', '3'] .inline ∧
      ((resume ['x', '~', 'é', '~', '3'] 1).next .inline).1.kind = .errorToken ∧
      ((resume ['x', '~', 'é', '~', '3'] 1).next .inline).1.span = ⟨1, 5⟩ := by
  have h : Text.isBoundary ['x', '~', 'é', '~', '3'] 1 = true := by decide
  have hsteps := resume_stepsOver ['x', '~', 'é', '~', '3'] h
  exact ⟨h, hsteps.1, hsteps.2.1 [] .inline, by decide, by decide⟩

end Reader

end LpFormat
