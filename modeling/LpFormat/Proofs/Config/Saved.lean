import LpFormat.Config
import LpFormat.Proofs.Config.Toml

/-!
# Saved settings

Settings that are loaded have options in range, and settings with options in range come back from
the file that saving them leaves.

* `Options.InRange`: the numbers of the options fit the words they are kept in;
* `Config.inRange_of_load`: whatever a file holds, the options that are loaded are in range;
* `Config.assignments`: the lines of saved settings, `Config.toList_render`;
* `Config.ofText?_table`: settings from a table with some lines, `Config.ofText?_render`: from a
  written text;
* **`Config.load_save_iff`**: saved settings load back exactly if their options are in range.
-/

namespace LpFormat

/-! ## Options in range -/

theorem Setting.lt_of_natBelow? {limit n : Nat} {s : Setting} (h : s.natBelow? limit = some n) :
    n < limit := by
  cases s with
  | int i =>
    obtain ⟨hi, hn⟩ := Option.ite_none_right_eq_some.1 h
    obtain rfl := Option.some.inj hn
    omega
  | _ => cases h

theorem Setting.natBelow?_int {limit n : Nat} (h : n < limit) :
    (Setting.int n).natBelow? limit = some n := by
  have hn : (0 : Int) ≤ n ∧ (n : Int) < limit := ⟨Int.natCast_nonneg n, Int.ofNat_lt.2 h⟩
  rw [Setting.natBelow?, if_pos hn, Int.toNat_natCast]

namespace Options

variable {o o' : Options}

/-- The numbers fit the words they are kept in. -/
structure InRange (o : Options) : Prop where
  cap : ∀ n ∈ o.maxErrors, n < Nat.pow 2 64
  share : o.maxDeadPercent < Nat.pow 2 8

theorem inRange_default : InRange {} where
  cap := by
    rintro n ⟨⟩
  share := by decide

/-- An option is only set to a number in range. -/
theorem InRange.set? (ho : o.InRange) {name : String} {s : Setting} (h : o.set? name s = some o') :
    o'.InRange := by
  rw [Options.set?] at h
  split_ifs at h
  · obtain ⟨b, -, rfl⟩ := Option.map_eq_some_iff.1 h
    exact ⟨ho.cap, ho.share⟩
  · cases s with
    | null =>
      obtain rfl := Option.some.inj h
      exact ⟨by rintro n ⟨⟩, ho.share⟩
    | int i =>
      obtain ⟨n, hn, rfl⟩ := Option.map_eq_some_iff.1 h
      refine ⟨?_, ho.share⟩
      rintro m ⟨⟩
      exact Setting.lt_of_natBelow? hn
    | _ => cases h
  · obtain ⟨n, hn, rfl⟩ := Option.map_eq_some_iff.1 h
    exact ⟨ho.cap, Setting.lt_of_natBelow? hn⟩
  · obtain rfl := Option.some.inj h
    exact ho

theorem inRange_of_ofSettings? {fields : List (String × Setting)} (h : ofSettings? fields = some o) :
    o.InRange := by
  rw [ofSettings?] at h
  have hstart := inRange_default
  revert hstart h
  generalize ({} : Options) = start
  intro h hstart
  induction fields generalizing start with
  | nil =>
    obtain rfl := Option.some.inj h
    exact hstart
  | cons f fields ih =>
    rw [List.foldlM_cons] at h
    obtain ⟨next, hnext, h⟩ := Option.bind_eq_some_iff.1 h
    exact ih next h (hstart.set? hnext)

end Options

theorem Toml.Value.inRange_of_options? {value : Toml.Value} {o : Options}
    (h : value.options? = some o) : o.InRange := by
  cases value with
  | table _ fields =>
    obtain ⟨-, h⟩ := Option.ite_none_right_eq_some.1 h
    exact Options.inRange_of_ofSettings? h
  | array items => exact Options.inRange_of_ofSettings? h
  | tables elements => exact Options.inRange_of_ofSettings? h
  | dateTime =>
    obtain rfl := Option.some.inj h
    exact Options.inRange_default
  | _ => cases h

namespace Config

variable {c : Config}

theorem inRange_of_ofText? {text : Text} (h : ofText? text = some c) : c.parser.InRange := by
  obtain ⟨fields, -, h⟩ := Option.bind_eq_some_iff.1 h
  obtain ⟨-, -, h⟩ := Option.bind_eq_some_iff.1 h
  split at h
  · obtain rfl := Option.some.inj h
    exact Options.inRange_default
  · obtain ⟨o, ho, h⟩ := Option.bind_eq_some_iff.1 h
    obtain rfl := Option.some.inj h
    exact Toml.Value.inRange_of_options? ho

/-- **Options that are loaded are in range.** -/
theorem inRange_of_load {path : Text} {file : ConfigFile} (h : load path file = .ok (some c)) :
    c.parser.InRange := by
  cases file with
  | missing => cases h
  | directory => cases h
  | content bytes =>
    rw [load] at h
    split at h
    · cases h
    · split at h
      · cases h
      · rename_i htext
        obtain rfl := Option.some.inj (Except.ok.inj h)
        exact inRange_of_ofText? htext

/-! ## The lines of saved settings -/

/-- The word for a truth value. -/
def flagWord (b : Bool) : String := if b then "true" else "false"

/-- A line with a truth value. -/
def flagLine (key : String) (b : Bool) : Toml.Assignment := ⟨key.toList, (flagWord b).toList, .boolean b⟩

/-- A line with a number. -/
def numberLine (key : String) (n : Nat) : Toml.Assignment :=
  ⟨key.toList, Nat.toDigits 10 n, .integer n⟩

/-- The lines of saved settings, below their header. -/
def assignments (c : Config) : List Toml.Assignment :=
  flagLine "incremental" c.parser.incremental ::
    (c.parser.maxErrors.toList.map (numberLine "max_errors") ++
      [numberLine "max_dead_percent" c.parser.maxDeadPercent])

/-- Saved settings are a header with lines below it. -/
theorem toList_render (c : Config) :
    c.render.toList =
      '[' :: (parserKey ++ ']' :: '\n' :: c.assignments.flatMap Toml.Assignment.text) := by
  have hflag : ∀ b : Bool, (s!"incremental = {flagWord b}\n").toList =
      (flagLine "incremental" b).text := by decide
  have hcap : ∀ n : Nat, (s!"max_errors = {n}\n").toList = (numberLine "max_errors" n).text := by
    intro n
    rw [String.toList_append, String.toList_append, Nat.toString_eq_repr, Nat.toList_repr]
    rfl
  have hshare : ∀ n : Nat, (s!"max_dead_percent = {n}\n").toList =
      (numberLine "max_dead_percent" n).text := by
    intro n
    rw [String.toList_append, String.toList_append, Nat.toString_eq_repr, Nat.toList_repr]
    rfl
  have hheader : "[parser]\n".toList = '[' :: (parserKey ++ ']' :: ['\n']) := rfl
  obtain ⟨⟨b, cap, share⟩⟩ := c
  cases cap with
  | none =>
    have hrender : render ⟨⟨b, none, share⟩⟩ = "[parser]\n" ++ s!"incremental = {flagWord b}\n" ++
        "" ++ s!"max_dead_percent = {share}\n" := rfl
    rw [hrender, String.append_empty, String.toList_append, String.toList_append, hheader, hflag,
      hshare]
    simp [assignments]
  | some n =>
    have hrender : render ⟨⟨b, some n, share⟩⟩ = "[parser]\n" ++ s!"incremental = {flagWord b}\n" ++
        s!"max_errors = {n}\n" ++ s!"max_dead_percent = {share}\n" := rfl
    rw [hrender, String.toList_append, String.toList_append, String.toList_append, hheader, hflag,
      hcap, hshare]
    simp [assignments]

theorem plain_flagLine {key : String} (hne : key.toList ≠ [])
    (hkey : ∀ c ∈ key.toList, Toml.isKeyChar c = true) (b : Bool) : (flagLine key b).Plain where
  key_ne := hne
  key := hkey
  word_ne := by
    revert b
    show ∀ b, (flagWord b).toList ≠ []
    decide
  word := by
    have hword : ∀ b, (flagWord b).toList.all Toml.isWordChar = true := by decide
    exact List.all_eq_true.1 (hword b)
  value := by cases b <;> rfl

theorem plain_numberLine {key : String} (hne : key.toList ≠ [])
    (hkey : ∀ c ∈ key.toList, Toml.isKeyChar c = true) (n : Nat) : (numberLine key n).Plain where
  key_ne := hne
  key := hkey
  word_ne := Nat.toDigits_ne_nil
  word := by
    intro c hc
    have hdigit := Nat.isDigit_of_mem_toDigits (by decide) (by decide) hc
    simp [Toml.isWordChar, Char.isAlphanum, hdigit]
  value := Toml.ofWord?_nat n

theorem plain_of_mem_assignments {a : Toml.Assignment} (ha : a ∈ c.assignments) : a.Plain := by
  obtain rfl | ha := List.mem_cons.1 ha
  · exact plain_flagLine (by decide) (List.all_eq_true.1 (by decide)) _
  obtain ha | ha := List.mem_append.1 ha
  · obtain ⟨n, -, rfl⟩ := List.mem_map.1 ha
    exact plain_numberLine (by decide) (List.all_eq_true.1 (by decide)) n
  · obtain rfl := List.mem_singleton.1 ha
    exact plain_numberLine (by decide) (List.all_eq_true.1 (by decide)) _

theorem nodup_assignments (c : Config) : (c.assignments.map Toml.Assignment.key).Nodup := by
  rw [assignments]
  cases c.parser.maxErrors with
  | none =>
    show ["incremental".toList, "max_dead_percent".toList].Nodup
    decide
  | some n =>
    show ["incremental".toList, "max_errors".toList, "max_dead_percent".toList].Nodup
    decide

/-! ## Saving and loading -/

/-- The lines of a table as its fields. -/
def fieldsOf (as : List Toml.Assignment) : Toml.Fields := as.map fun a => (a.key, a.value)

/-- **A table of lines with different keys gives the options of its fields**, whichever it names and in
whichever order. -/
theorem ofText?_table {as : List Toml.Assignment} (has : ∀ a ∈ as, a.Plain)
    (hnodup : (as.map Toml.Assignment.key).Nodup) :
    ofText? ('[' :: (parserKey ++ ']' :: '\n' :: as.flatMap Toml.Assignment.text)) =
      (Toml.Value.table .header (fieldsOf as)).options?.map Config.mk := by
  rw [ofText?, Toml.document?_table (by decide) (List.all_eq_true.1 (by decide)) has hnodup]
  have hrest : Toml.inRangeFields
      (List.filter (fun f => f.1 != parserKey) [(parserKey, .table .header (fieldsOf as))]) = true := rfl
  have hlookup : Toml.lookup parserKey [(parserKey, .table .header (fieldsOf as))] =
      some (.table .header (fieldsOf as)) := rfl
  rw [← fieldsOf, Option.bind_eq_bind, Option.bind_some, hrest, hlookup]
  show Option.bind _ (fun o => some (mk o)) = _
  rw [Option.map_eq_bind]
  rfl

theorem fits_of_lt {n : Nat} (h : n < Nat.pow 2 64) : Toml.fits n = true := by
  have h64 : Nat.pow 2 64 = 18446744073709551616 := by decide
  have h127 : Int.pow 2 127 = 170141183460469231731687303715884105728 := by decide
  have h128 : Int.pow 2 128 = 340282366920938463463374607431768211456 := by decide
  simp only [Toml.fits, h127, h128, Bool.and_eq_true, decide_eq_true_eq]
  omega

theorem inRangeFields_assignments (h : c.parser.InRange) :
    Toml.inRangeFields (fieldsOf c.assignments) = true := by
  have hshare : Toml.fits c.parser.maxDeadPercent = true :=
    fits_of_lt (Nat.lt_trans h.share (by decide))
  rw [fieldsOf, assignments]
  cases hcap : c.parser.maxErrors with
  | none => simp [Toml.inRangeFields, flagLine, numberLine, Toml.Value.inRange, hshare]
  | some n =>
    have hn := fits_of_lt (h.cap n hcap)
    simp [Toml.inRangeFields, flagLine, numberLine, Toml.Value.inRange, hshare, hn]

/-- The lines set every option to what it is. -/
theorem options?_assignments (h : c.parser.InRange) :
    (Toml.Value.table .header (fieldsOf c.assignments)).options? = some c.parser := by
  have hflag : ∀ o : Options, o.set? "incremental" (.bool c.parser.incremental) =
      some { o with incremental := c.parser.incremental } := fun o => rfl
  have hcap : ∀ (o : Options), ∀ n ∈ c.parser.maxErrors, o.set? "max_errors" (.int n) =
      some { o with maxErrors := some n } := fun o n hn => by
    simp [Options.set?, Options.setMaxErrors?, Setting.natBelow?_int (h.cap n hn)]
  have hshare : ∀ o : Options, o.set? "max_dead_percent" (.int c.parser.maxDeadPercent) =
      some { o with maxDeadPercent := c.parser.maxDeadPercent } := fun o => by
    simp [Options.set?, Options.setMaxDeadPercent?, Setting.natBelow?_int h.share]
  rw [Toml.Value.options?, if_pos (inRangeFields_assignments h), Options.ofSettings?, fieldsOf,
    assignments]
  clear h
  obtain ⟨⟨b, cap, share⟩⟩ := c
  cases cap with
  | none => simp [flagLine, numberLine, Toml.Value.setting, hflag, hshare]
  | some n => simp [flagLine, numberLine, Toml.Value.setting, hflag, hcap, hshare]

/-- A written text is read back. -/
theorem ofText?_render (h : c.parser.InRange) : ofText? c.render.toList = some c := by
  rw [toList_render, ofText?_table (fun a ha => plain_of_mem_assignments ha) (nodup_assignments c),
    options?_assignments h]
  rfl

theorem load_save (path : Text) (h : c.parser.InRange) : load path c.save = .ok (some c) := by
  have hbytes : String.fromUTF8? c.render.toUTF8 = some c.render :=
    dif_pos c.render.isValidUTF8
  rw [save, load, hbytes]
  simp only [ofText?_render h]

/-- **Saved settings load back exactly if their options are in range.** -/
theorem load_save_iff (path : Text) (c : Config) :
    load path c.save = .ok (some c) ↔ c.parser.InRange :=
  ⟨inRange_of_load, load_save path⟩

end Config

end LpFormat
