import LpFormat.Proofs.Reparse.Statement

/-!
# Histories of edits

Every answer to an edit is what parsing the new text gives, whichever way it was found; so this holds
of every result that any number of edits leads to.

* `Parse.reparseText_cases`, `Parse.reparse_cases`: the three ways in which an edit is answered;
* `Parse.reparseText_faithful`, `Parse.reparse_eq_ok`: one edit;
* `Parse.after`, `Edit.after`: one step of a history, in which an edit that does not apply is passed
  over;
* `Parse.foldl_after_faithful`: a whole history;
* **`reparse_history`**: after any edits, the result is the one for the current text, and an edit is
  refused exactly if it does not apply to that text.
-/

namespace LpFormat

/-- The three ways in which an edit is answered. -/
theorem Parse.reparseText_cases (p : Parse) (e : Edit) (text : Text) :
    (p.capReached = false ∧ p.relexToken? e text = some (p.reparseText e text).1) ∨
      (p.capReached = false ∧ (p.reparseStatement e text).1 = some (p.reparseText e text).1) ∨
      ∃ reason, (p.reparseText e text).1 = (p.reparseFully text reason).1 := by
  rw [reparseText]
  split_ifs with hoff hcap
  · exact .inr (.inr ⟨_, rfl⟩)
  · exact .inr (.inr ⟨_, rfl⟩)
  · have hcap' : p.capReached = false := by simpa using hcap
    cases p.relexToken? e text with
    | some answer => exact .inl ⟨hcap', rfl⟩
    | none =>
      cases p.reparseStatement e text with
      | mk found log =>
        cases found with
        | some answer => exact .inr (.inl ⟨hcap', rfl⟩)
        | none => exact .inr (.inr ⟨.notLocal, rfl⟩)

/-- **One edit**: the answer is what parsing the new text gives. -/
theorem Parse.reparseText_faithful {p : Parse} {e : Edit} {a m z : Text} (hp : p.Faithful)
    (hcut : e.Cuts p.text a m z) :
    (p.reparseText e (a ++ e.insert ++ z)).1.parse.Faithful ∧
      (p.reparseText e (a ++ e.insert ++ z)).1.parse.text = a ++ e.insert ++ z ∧
      (p.reparseText e (a ++ e.insert ++ z)).1.parse.options = p.options := by
  rcases p.reparseText_cases e (a ++ e.insert ++ z) with ⟨hcap, h⟩ | ⟨hcap, h⟩ | ⟨reason, h⟩
  · exact relexToken?_faithful hp hcap hcut h
  · exact reparseStatement_faithful hp hcap hcut h
  · rw [h]
    exact ⟨parse_faithful _ _, rfl, rfl⟩

/-- An edit that applies cuts the text and is answered in one of the three ways. -/
theorem Parse.reparse_cases {p : Parse} {e : Edit} (he : e.span.start ≤ e.span.stop)
    {answer : Reparse} {log : List LogEntry} (h : p.reparse e = .ok (answer, log)) :
    ∃ a m z, e.Cuts p.text a m z ∧ answer = (p.reparseText e (a ++ e.insert ++ z)).1 ∧
      (p.relexToken? e (a ++ e.insert ++ z) = some answer ∨
        (p.reparseStatement e (a ++ e.insert ++ z)).1 = some answer ∨
        ∃ reason, answer = (p.reparseFully (a ++ e.insert ++ z) reason).1) := by
  rw [reparse] at h
  cases happly : e.apply p.text with
  | error err =>
    rw [happly] at h
    cases h
  | ok new =>
    obtain ⟨a, m, z, hcut, rfl⟩ := (Edit.apply_eq_ok_iff he).1 happly
    rw [happly, Except.map, Except.ok.injEq] at h
    have hanswer : (p.reparseText e (a ++ e.insert ++ z)).1 = answer := by rw [h]
    have hcases := p.reparseText_cases e (a ++ e.insert ++ z)
    rw [hanswer] at hcases
    exact ⟨a, m, z, hcut, hanswer.symm, hcases.imp And.right (Or.imp_left And.right)⟩

theorem Parse.reparse_eq_ok {p : Parse} {e : Edit} (hp : p.Faithful)
    (he : e.span.start ≤ e.span.stop) {answer : Reparse} {log : List LogEntry}
    (h : p.reparse e = .ok (answer, log)) :
    answer.parse.Faithful ∧ e.apply p.text = .ok answer.parse.text ∧
      answer.parse.options = p.options := by
  obtain ⟨a, m, z, hcut, rfl, _⟩ := reparse_cases he h
  obtain ⟨h₁, h₂, h₃⟩ := reparseText_faithful hp hcut
  refine ⟨h₁, ?_, h₃⟩
  rw [h₂]
  exact (Edit.apply_eq_ok_iff he).2 ⟨a, m, z, hcut, rfl⟩

/-- A result after one more edit; an edit that does not apply changes nothing. -/
def Parse.after (p : Parse) (e : Edit) : Parse :=
  match p.reparse e with
  | .ok (answer, _) => answer.parse
  | .error _ => p

/-- A text after one more edit; an edit that does not apply changes nothing. -/
def Edit.after (text : Text) (e : Edit) : Text :=
  match e.apply text with
  | .ok new => new
  | .error _ => text

theorem Parse.after_faithful {p : Parse} {e : Edit} (hp : p.Faithful)
    (he : e.span.start ≤ e.span.stop) :
    (p.after e).Faithful ∧ (p.after e).text = Edit.after p.text e ∧
      (p.after e).options = p.options := by
  rw [after, Edit.after]
  cases h : p.reparse e with
  | ok r =>
    obtain ⟨h₁, h₂, h₃⟩ := reparse_eq_ok hp he h
    rw [h₂]
    exact ⟨h₁, rfl, h₃⟩
  | error err =>
    rw [reparse] at h
    cases happly : e.apply p.text with
    | ok new =>
      rw [happly] at h
      cases h
    | error err' => exact ⟨hp, rfl, rfl⟩

/-- **A whole history of edits.** -/
theorem Parse.foldl_after_faithful {p : Parse} (hp : p.Faithful) {edits : List Edit}
    (he : ∀ e ∈ edits, e.span.start ≤ e.span.stop) :
    (edits.foldl after p).Faithful ∧ (edits.foldl after p).text = edits.foldl Edit.after p.text ∧
      (edits.foldl after p).options = p.options := by
  induction edits generalizing p with
  | nil => exact ⟨hp, rfl, rfl⟩
  | cons e edits ih =>
    obtain ⟨he₀, he⟩ := List.forall_mem_cons.1 he
    obtain ⟨h₁, h₂, h₃⟩ := after_faithful hp he₀
    obtain ⟨ih₁, ih₂, ih₃⟩ := ih h₁ he
    exact ⟨ih₁, ih₂.trans (by rw [h₂, List.foldl_cons]), ih₃.trans h₃⟩

/-- **Editing and parsing anew agree along every history**: after any edits the result has the
current text, and the shapes, diagnostics and options of parsing that text; and an edit is refused
exactly if it does not apply to that text, with the same error. -/
theorem reparse_history (text : Text) (options : Options) (edits : List Edit)
    (he : ∀ e ∈ edits, e.span.start ≤ e.span.stop) :
    (edits.foldl Parse.after (parse text options)).text = edits.foldl Edit.after text ∧
      (edits.foldl Parse.after (parse text options)).tree.shapes =
        (parse (edits.foldl Edit.after text) options).tree.shapes ∧
      (edits.foldl Parse.after (parse text options)).diagnostics =
        (parse (edits.foldl Edit.after text) options).diagnostics ∧
      (edits.foldl Parse.after (parse text options)).options = options ∧
      ∀ (e : Edit) (error : EditError),
        (edits.foldl Parse.after (parse text options)).reparse e = .error error ↔
          e.apply (edits.foldl Edit.after text) = .error error := by
  obtain ⟨hp, htext, hoptions⟩ := Parse.foldl_after_faithful (parse_faithful text options) he
  have htext' : (edits.foldl Parse.after (parse text options)).text = edits.foldl Edit.after text :=
    htext
  have hnow := parse_faithful (edits.foldl Edit.after text) options
  refine ⟨htext', hp.shapes_eq hnow htext', ?_, hoptions, fun e error => ?_⟩
  · rw [hp.diagnostics, hnow.diagnostics, htext', hoptions]
    rfl
  · rw [Parse.reparse, htext']
    cases e.apply (edits.foldl Edit.after text) with
    | ok new => exact ⟨nofun, nofun⟩
    | error err => rw [Except.map, Except.error.injEq, Except.error.injEq]

/-- A history of two edits, of which the second does not apply. -/
theorem reparse_history_rename :
    ([⟨⟨0, 1⟩, ['y']⟩, ⟨⟨3, 4⟩, []⟩].foldl Parse.after (parse ['x'] {})).text = ['y'] ∧
      ([⟨⟨0, 1⟩, ['y']⟩, ⟨⟨3, 4⟩, []⟩].foldl Parse.after (parse ['x'] {})).diagnostics =
        (parse ['y'] {}).diagnostics := by
  have hedits : ∀ e ∈ ([⟨⟨0, 1⟩, ['y']⟩, ⟨⟨3, 4⟩, []⟩] : List Edit), e.span.start ≤ e.span.stop := by
    decide
  have hnow : ([⟨⟨0, 1⟩, ['y']⟩, ⟨⟨3, 4⟩, []⟩] : List Edit).foldl Edit.after ['x'] = ['y'] := by
    decide
  obtain ⟨htext, _, hdiagnostics, _⟩ := reparse_history ['x'] {} _ hedits
  rw [hnow] at htext hdiagnostics
  exact ⟨htext, hdiagnostics⟩

end LpFormat
