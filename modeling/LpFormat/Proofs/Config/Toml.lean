import LpFormat.Config.Toml.Document
import LpFormat.Proofs.Text.Scan
import Mathlib.Data.List.Nodup
import Mathlib.Data.Option.Basic

/-!
# Tables of bare words

A document that holds one table, with a line for each field and a bare word for each value, is read
back as it was written.

* `Toml.ofWord?_nat`: the digits of a number stand for that number;
* `Toml.Assignment`, `Toml.Assignment.Plain`: a line with a bare key and a bare word;
* `Toml.keys?_bare`, `Toml.value?_word`: keys and words, with what follows them;
  `Toml.line?_assignment`, `Toml.line?_header`: one line;
* **`Toml.document?_table`**: a whole document.
-/

namespace LpFormat.Toml

/-! ## Numbers -/

section Digits

variable {ds : Text}

/-- Characters other than digits are not among some digits. -/
theorem not_mem_of_digits (hd : ∀ c ∈ ds, c.isDigit = true) {c : Char} (hc : c.isDigit = false) :
    c ∉ ds := by
  intro h
  rw [hd c h] at hc
  cases hc

theorem digits?_eq (hne : ds ≠ []) (hd : ∀ c ∈ ds, c.isDigit = true) :
    digits? Char.isDigit ds = some ds := by
  fun_induction digits? Char.isDigit ds with
  | case1 => exact absurd rfl hne
  | case2 c hc => rfl
  | case3 c hc => exact absurd (hd c List.mem_cons_self) hc
  | case4 c d rest => exact absurd (by simp) (not_mem_of_digits hd (c := '_') rfl)
  | case5 c d rest => exact absurd (by simp) (not_mem_of_digits hd (c := '_') rfl)
  | case6 c d rest _ hc ih => rw [ih (List.cons_ne_nil _ _) fun e he => hd e (List.mem_cons_of_mem _ he)]; rfl
  | case7 c d rest _ hc => exact absurd (hd c List.mem_cons_self) hc

theorem number?_eq (hd : ∀ c ∈ ds, c.isDigit = true) :
    number? 10 ds = some (Nat.ofDigitChars 10 ds 0) := by
  rw [number?]
  generalize 0 = n
  induction ds generalizing n with
  | nil => rfl
  | cons c ds ih =>
    obtain ⟨hc, hds⟩ := List.forall_mem_cons.1 hd
    rw [List.foldlM_cons, hexDigit?, if_pos hc, Nat.ofDigitChars_cons]
    exact ih hds _

/-- Digits without needless zeros in front stand for a whole number. -/
theorem integer?_eq (hne : ds ≠ []) (hd : ∀ c ∈ ds, c.isDigit = true)
    (hlead : (ds.length == 1 || ds.head? != some '0') = true) :
    integer? ds = some (Nat.ofDigitChars 10 ds 0 : Nat) := by
  have hdecimal : decimal? ds = some ds := by
    rw [decimal?, digits?_eq hne hd, Option.filter_some, if_pos hlead]
  have hsign : sign ds = (false, ds) := by
    rw [sign]
    · rintro rest rfl
      exact not_mem_of_digits hd (c := '+') rfl (by simp)
    · rintro rest rfl
      exact not_mem_of_digits hd (c := '-') rfl (by simp)
  rw [integer?, hsign]
  · simp [hdecimal, number?_eq hd]
  · rintro rest rfl
    exact not_mem_of_digits hd (c := 'x') rfl (by simp)
  · rintro rest rfl
    exact not_mem_of_digits hd (c := 'o') rfl (by simp)
  · rintro rest rfl
    exact not_mem_of_digits hd (c := 'b') rfl (by simp)

/-- Digits are no date and no time. -/
theorem isDateTime_eq (hd : ∀ c ∈ ds, c.isDigit = true) : isDateTime ds = false := by
  have hdate : afterDate? ds = none := by
    rw [afterDate?]
    rintro a b c d e f g h rest rfl
    exact not_mem_of_digits hd (c := '-') rfl (by simp)
  have htime : afterTime? ds = none := by
    rw [afterTime?]
    rintro a b c d rest rfl
    exact not_mem_of_digits hd (c := ':') rfl (by simp)
  rw [isDateTime, hdate, htime]
  rfl

end Digits

/-- Only zero is written with a zero in front. -/
theorem head?_toDigits {n : Nat} (hn : 0 < n) : (Nat.toDigits 10 n).head? ≠ some '0' := by
  induction n using Nat.base_induction 10 (by decide) with
  | single m hm =>
    rw [Nat.toDigits_of_lt_base hm]
    simp
    omega
  | digit m k hk hm ih =>
    rw [← Nat.toDigits_append_toDigits (by decide) hm hk, List.head?_append_of_ne_nil _ Nat.toDigits_ne_nil]
    exact ih hm

/-- **The digits of a number stand for the number.** -/
theorem ofWord?_nat (n : Nat) : ofWord? (Nat.toDigits 10 n) = some (.integer n) := by
  have hd : ∀ c ∈ Nat.toDigits 10 n, c.isDigit = true := fun c hc =>
    Nat.isDigit_of_mem_toDigits (by decide) (by decide) hc
  have hlead : ((Nat.toDigits 10 n).length == 1 || (Nat.toDigits 10 n).head? != some '0') = true := by
    rcases Nat.eq_zero_or_pos n with rfl | hn
    · rfl
    · simp [head?_toDigits hn]
  have htrue : Nat.toDigits 10 n ≠ "true".toList := fun h =>
    not_mem_of_digits hd (c := 't') rfl (h ▸ List.mem_cons_self)
  have hfalse : Nat.toDigits 10 n ≠ "false".toList := fun h =>
    not_mem_of_digits hd (c := 'f') rfl (h ▸ List.mem_cons_self)
  rw [ofWord?, if_neg htrue, if_neg hfalse, isDateTime_eq hd,
    integer?_eq Nat.toDigits_ne_nil hd hlead, Nat.ofDigitChars_ten_toDigits]
  rfl

/-! ## Keys and words -/

/-- A character that a scanner takes is none at which it stops. -/
theorem ne_of_takes {p : Char → Bool} {c d : Char} (hc : p c = true) (hd : p d = false) : c ≠ d := by
  rintro rfl
  rw [hc] at hd
  cases hd

theorem isSpace_eq_false {p : Char → Bool} {c : Char} (hc : p c = true) (hspace : p ' ' = false)
    (htab : p '\t' = false) : isSpace c = false := by
  simp [isSpace, ne_of_takes hc hspace, ne_of_takes hc htab]

/-- A bare key that no point follows. -/
theorem keys?_bare {key rest : Text} (hne : key ≠ []) (hkey : ∀ c ∈ key, isKeyChar c = true)
    (hrest : ∀ c ∈ rest.head?, isKeyChar c = false) (hdot : ∀ c ∈ (skipSpace rest).head?, c ≠ '.') :
    keys? (key ++ rest) = some ([key], skipSpace rest) := by
  have hsimple : simpleKey? (key ++ rest) = some (key, rest) := by
    obtain ⟨c, cs, rfl⟩ := List.exists_cons_of_ne_nil hne
    have hc := hkey c List.mem_cons_self
    rw [List.cons_append, simpleKey?, ← List.cons_append, takeWhile_append_stop hkey hrest,
      dropWhile_append_stop hkey hrest, if_neg hne]
    · rintro cs' heq
      exact ne_of_takes hc (d := '"') rfl (List.cons.inj heq).1
    · rintro cs' heq
      exact ne_of_takes hc (d := '\x27') rfl (List.cons.inj heq).1
  have hkeys : keysWithin? ((key ++ rest).length + 1) (key ++ rest) = some ([key], skipSpace rest) := by
    rw [keysWithin?, hsimple, Option.bind_eq_bind, Option.bind_some]
    simp only
    generalize skipSpace rest = after at hdot
    split
    · exact absurd rfl (hdot '.' rfl)
    · rfl
  rw [keys?, hkeys]
  rfl

/-- A bare word up to the end of its line. -/
theorem value?_word {word rest : Text} {v : Value} (hne : word ≠ [])
    (hword : ∀ c ∈ word, isWordChar c = true) (hv : ofWord? word = some v) :
    value? (word ++ '\n' :: rest) = some (v, '\n' :: rest) := by
  have hstop : ∀ c ∈ ('\n' :: rest).head?, isWordChar c = false := by
    rintro c ⟨⟩
    rfl
  have hbare : word? (word ++ '\n' :: rest) = some (v, '\n' :: rest) := by
    rw [word?, takeWhile_append_stop hword hstop, dropWhile_append_stop hword hstop]
    split
    · rename_i heq
      cases heq
    · rw [hv]
      rfl
  obtain ⟨c, cs, rfl⟩ := List.exists_cons_of_ne_nil hne
  have hc := hword c List.mem_cons_self
  rw [value?, valueWithin?, hbare]
  all_goals
    rintro cs' heq
    exact ne_of_takes hc rfl (List.cons.inj heq).1

/-! ## Lines -/

/-- A line with a bare key and a bare word, and the value that the word stands for. -/
structure Assignment where
  key : Text
  word : Text
  value : Value

namespace Assignment

/-- The text of a line. -/
def text (a : Assignment) : Text := a.key ++ ' ' :: '=' :: ' ' :: (a.word ++ ['\n'])

/-- Key and word are bare, and the word stands for the value. -/
structure Plain (a : Assignment) : Prop where
  key_ne : a.key ≠ []
  key : ∀ c ∈ a.key, isKeyChar c = true
  word_ne : a.word ≠ []
  word : ∀ c ∈ a.word, isWordChar c = true
  value : ofWord? a.word = some a.value

end Assignment

theorem skipSpace_cons {c : Char} (hc : isSpace c = false) (cs : Text) : skipSpace (c :: cs) = c :: cs :=
  List.dropWhile_cons_of_neg (by simp [hc])

theorem lineEnd?_newline (rest : Text) : lineEnd? ('\n' :: rest) = some rest := by
  rw [lineEnd?, skipSpace_cons rfl]
  rfl

/-- No line ends where a key begins. -/
theorem lineEnd?_key {c : Char} (hc : isKeyChar c = true) (cs : Text) : lineEnd? (c :: cs) = none := by
  have hcomment : skipComment (c :: cs) = c :: cs := by
    rw [skipComment]
    rintro cs' heq
    exact ne_of_takes hc rfl (List.cons.inj heq).1
  rw [lineEnd?, skipSpace_cons (isSpace_eq_false hc rfl rfl), hcomment]
  simp only
  rw [newline?]
  · rintro cs' heq
    exact ne_of_takes hc rfl (List.cons.inj heq).1
  · rintro cs' heq
    exact ne_of_takes hc rfl (List.cons.inj heq).1

/-- A line gives a key of the open table its value. -/
theorem line?_assignment (s : State) {a : Assignment} (ha : a.Plain) (rest : Text) :
    line? s (a.text ++ rest) = (s.assign? [a.key] a.value).map (·, rest) := by
  have htext : a.text ++ rest = a.key ++ ' ' :: '=' :: ' ' :: (a.word ++ '\n' :: rest) := by
    simp [Assignment.text]
  have hkeys : keys? (a.text ++ rest) = some ([a.key], '=' :: ' ' :: (a.word ++ '\n' :: rest)) := by
    rw [htext]
    exact keys?_bare ha.key_ne ha.key (by rintro c ⟨⟩; rfl) (by rintro c ⟨⟩; decide)
  have hword : skipSpace (' ' :: (a.word ++ '\n' :: rest)) = a.word ++ '\n' :: rest := by
    obtain ⟨w, ws, hw⟩ := List.exists_cons_of_ne_nil ha.word_ne
    rw [hw]
    exact skipSpace_cons (isSpace_eq_false (ha.word w (hw ▸ List.mem_cons_self)) rfl rfl) _
  obtain ⟨c, cs, hcs, hc⟩ : ∃ c cs, a.text ++ rest = c :: cs ∧ isKeyChar c = true := by
    obtain ⟨c, cs, hkey⟩ := List.exists_cons_of_ne_nil ha.key_ne
    exact ⟨c, _, by rw [htext, hkey, List.cons_append], ha.key c (hkey ▸ List.mem_cons_self)⟩
  rw [hcs] at hkeys ⊢
  rw [line?, skipSpace_cons (isSpace_eq_false hc rfl rfl)]
  split
  · rename_i heq
    exact absurd (List.cons.inj heq).1 (ne_of_takes hc rfl)
  · rename_i heq
    exact absurd (List.cons.inj heq).1 (ne_of_takes hc rfl)
  · rw [lineEnd?_key hc]
    simp only [hkeys, hword, value?_word ha.word_ne ha.word ha.value, lineEnd?_newline,
      Option.bind_eq_bind, Option.bind_some]
    cases s.assign? [a.key] a.value <;> rfl

/-- The header of a table that is new. -/
theorem line?_header {key : Text} (hne : key ≠ []) (hkey : ∀ c ∈ key, isKeyChar c = true)
    (rest : Text) : line? {} ('[' :: (key ++ ']' :: '\n' :: rest)) =
      some (⟨[(key, .table .header [])], [key]⟩, rest) := by
  have hkeys : keys? (key ++ ']' :: '\n' :: rest) = some ([key], ']' :: '\n' :: rest) :=
    keys?_bare hne hkey (by rintro c ⟨⟩; rfl) (by rintro c ⟨⟩; decide)
  obtain ⟨c, cs, hcs, hc⟩ : ∃ c cs, key ++ ']' :: '\n' :: rest = c :: cs ∧ isKeyChar c = true := by
    obtain ⟨c, cs, rfl⟩ := List.exists_cons_of_ne_nil hne
    exact ⟨c, _, rfl, hkey c List.mem_cons_self⟩
  rw [hcs] at hkeys ⊢
  rw [line?, skipSpace_cons rfl]
  split
  · rename_i heq
    exact absurd (List.cons.inj (List.cons.inj heq).2).1 (ne_of_takes hc rfl)
  · rename_i heq
    obtain rfl := (List.cons.inj heq).2
    rw [skipSpace_cons (isSpace_eq_false hc rfl rfl), hkeys]
    simp only [Option.bind_eq_bind, Option.bind_some, lineEnd?_newline]
    rfl
  · rename_i hbracket
    exact absurd rfl (hbracket _)

/-! ## Documents -/

/-- A key that is new goes behind the others of the open table. -/
theorem assign?_new {name key : Text} {fields : Fields} (value : Value)
    (hnew : ∀ f ∈ fields, f.1 ≠ key) :
    State.assign? ⟨[(name, .table .header fields)], [name]⟩ [key] value =
      some ⟨[(name, .table .header (fields ++ [(key, value)]))], [name]⟩ := by
  have hlookup : lookup key fields = none := by
    rw [lookup, List.find?_eq_none.2 (by simpa using hnew)]
    rfl
  have hself : lookup name [(name, Value.table .header fields)] = some (.table .header fields) := by
    simp [lookup]
  simp [State.assign?, updateAt?, hself, Toml.assign?, insertNew?, hlookup, replace]

/-- The lines of a table are read one after another. -/
theorem linesWithin?_assignments {name : Text} {as : List Assignment} (has : ∀ a ∈ as, a.Plain)
    (fields : Fields) (hnodup : (fields.map Prod.fst ++ as.map Assignment.key).Nodup) (rounds : Nat)
    (hr : as.length ≤ rounds) :
    linesWithin? rounds ⟨[(name, .table .header fields)], [name]⟩ (as.flatMap Assignment.text) =
      some ⟨[(name, .table .header (fields ++ as.map fun a => (a.key, a.value)))], [name]⟩ := by
  induction as generalizing fields rounds with
  | nil =>
    rw [List.map_nil, List.append_nil]
    cases rounds <;> rfl
  | cons a as ih =>
    obtain ⟨rounds, rfl⟩ : ∃ r, rounds = r + 1 := Nat.exists_eq_add_one_of_ne_zero (by
      rw [List.length_cons] at hr
      omega)
    obtain ⟨ha, has⟩ := List.forall_mem_cons.1 has
    have hnew : ∀ f ∈ fields, f.1 ≠ a.key := by
      intro f hf heq
      rw [List.map_cons, List.nodup_append] at hnodup
      exact hnodup.2.2 f.1 (List.mem_map_of_mem hf) a.key List.mem_cons_self heq
    have hrest := ih has (fields ++ [(a.key, a.value)]) (by simpa using hnodup) rounds
      (Nat.le_of_succ_le_succ hr)
    rw [List.flatMap_cons, linesWithin?, line?_assignment _ ha, assign?_new _ hnew]
    · simpa using hrest
    · simp [Assignment.text]

/-- There are no more lines than characters. -/
theorem length_le_length_text (as : List Assignment) :
    as.length ≤ (as.flatMap Assignment.text).length := by
  induction as with
  | nil => exact Nat.le_refl 0
  | cons a as ih =>
    rw [List.flatMap_cons, List.length_append, List.length_cons, Assignment.text]
    simp only [List.length_append, List.length_cons]
    omega

/-- **A document with one table of bare words is read back.** -/
theorem document?_table {name : Text} (hne : name ≠ []) (hname : ∀ c ∈ name, isKeyChar c = true)
    {as : List Assignment} (has : ∀ a ∈ as, a.Plain) (hnodup : (as.map Assignment.key).Nodup) :
    document? ('[' :: (name ++ ']' :: '\n' :: as.flatMap Assignment.text)) =
      some [(name, .table .header (as.map fun a => (a.key, a.value)))] := by
  have hmark : ∀ cs, skipMark ('[' :: cs) = '[' :: cs := by
    intro cs
    rw [skipMark]
    rintro rest heq
    cases heq
  have hlines := @linesWithin?_assignments name as has [] hnodup
    (name ++ ']' :: '\n' :: as.flatMap Assignment.text).length.succ (by
      have := length_le_length_text as
      simp only [List.length_append, List.length_cons]
      omega)
  rw [document?, hmark, List.length_cons, linesWithin?, line?_header hne hname]
  · exact congrArg (Option.map State.root) hlines
  · simp

end LpFormat.Toml
