import LpFormat.Proofs.Checked.Reading
import LpFormat.Proofs.Parse.Leaves
import LpFormat.Proofs.Parsing.Script

/-!
# Rules on a machine

A rule is carried out step by step: tokens come from a buffer, and for each node a place among the
events is held from its start on, which is filled when the node is completed. Each step is tested.
No rule of the grammar fails on this machine, and it leaves what the rule leaves.

* `Machine`, `Action`: the state, and steps that change it; `Machine.peek`, `Machine.flush`,
  `Machine.bumpAs`, `Machine.begin`, `Machine.complete`, `Machine.loop`: the steps;
* `Rule.Script.run`: the action of a rule;
* `Machine.Reads`, `Machine.Leaves`: a machine in front of an input, and what it has left since;
  `Action.Carries`: an action that does what a rule does, with a lemma for each way to compose rules;
* **`Rule.Script.carries`**: every rule is carried out by its action;
* `Machine.start`, `Machine.finish`: a whole run; `Machine.statement_eq`, **`Machine.document_eq`**.
-/

namespace LpFormat

/-- The state of parsing. -/
structure Machine where
  source : Source
  /-- The events so far, with an empty place for the start of each node that is not completed. -/
  slots : List (Option Event)
  /-- The places that are held for nodes that are not completed. -/
  pending : List Nat
  diagnostics : List Diagnostic
  resyncs : List Resync
  taken : Nat
  takenEnd : Nat
  lastKind : Option Kind

/-- A step that changes the state or fails. -/
abbrev Action := StateT Machine Checked

namespace Machine

/-- The `n`th significant token ahead. -/
def peek (n : Nat) : Action Token := fun m => do
  let (t, source) ← m.source.nth n
  return (t, { m with source })

/-- The number of line ends from the `n`th significant token on, and the `n` before it. -/
def newlinesFrom : Nat → Nat → Action Nat
  | 0, _ => throw .endless
  | rounds + 1, n => do
    if (← peek n).kind = .newline then newlinesFrom rounds (n + 1) else return n

/-- The number of line ends ahead. -/
def newlines : Action Nat := fun m => newlinesFrom (m.source.scanner.text.length + 1) 0 m

/-- Moves the trivia ahead into the open node. -/
def flush : Action Unit := fun m => do
  let (trivia, source) ← m.source.takeTrivia
  return ((), { m with
    source
    slots := m.slots ++ trivia.map fun t => some (.token t.kind t.span)
    diagnostics := m.diagnostics ++ trivia.filterMap Rule.commentDiagnostic? })

/-- Moves the next significant token into the open node. -/
def takeToken (kind : Kind) : Action Unit := fun m => do
  let (t, source) ← m.source.bump
  return ((), { m with
    source
    slots := m.slots ++ [some (.token kind t.span)]
    taken := m.taken + 1
    takenEnd := t.span.stop
    lastKind := some t.kind })

/-- Takes the next significant token as one of a given kind. Nothing happens at the end of input. -/
def bumpAs (kind : Kind) : Action Unit := do
  if (← peek 0).kind = .eof then return ()
  else
    flush
    takeToken kind

/-- Leaves a diagnostic. -/
def report (d : Diagnostic) : Action Unit := fun m =>
  .ok ((), { m with diagnostics := m.diagnostics ++ [d] })

/-- Notes a place where a statement is given up. -/
def resync (r : Resync) : Action Unit := fun m => .ok ((), { m with resyncs := m.resyncs ++ [r] })

/-- Begins a node: a place is held for its start. -/
def begin : Action Nat := fun m =>
  .ok (m.slots.length,
    { m with slots := m.slots ++ [none], pending := m.slots.length :: m.pending })

/-- Completes a node, if its place is still held. -/
def complete (place : Nat) (kind : Kind) : Action Unit := fun m =>
  if m.slots[place]? = some none then
    .ok ((), { m with
      slots := m.slots.set place (some (.start kind)) ++ [some .finish]
      pending := m.pending.erase place })
  else .error (.unreserved place)

/-- Repeats a step as long as it answers `true`. -/
def loop (step : Action Bool) : Nat → Action Unit
  | 0 => throw .endless
  | rounds + 1 => do
    if ← step then loop step rounds else return ()

end Machine

/-- The action of a rule that is composed of basic ones. -/
def Rule.Script.run : {α : Type} → {p : Rule α} → Script p → Action α
  | _, _, .pure a => Pure.pure a
  | _, _, .bind hp hf => hp.run >>= fun a => (hf a).run
  | _, _, @Script.ite _ _ _ c _ hp hq => if c then hp.run else hq.run
  | _, _, .peek n => Machine.peek n
  | _, _, .newlines => Machine.newlines
  | _, _, .taken => fun m => .ok (m.taken, m)
  | _, _, .report problem _ span => Machine.report ⟨problem, span⟩
  | _, _, .missing e => fun m => Machine.report ⟨.missing e, .empty m.takenEnd⟩ m
  | _, _, .resync r => Machine.resync r
  | _, _, .takeTrivia => Machine.flush
  | _, _, .bump => do Machine.bumpAs (← Machine.peek 0).kind
  | _, _, .bumpAs kind _ => Machine.bumpAs kind
  | _, _, .enclose hb => do
    let place ← Machine.begin
    let kind ← hb.run
    Machine.complete place kind
  | _, _, .repeatWhile _ hs => fun m => Machine.loop hs.run (m.source.scanner.text.length + 1) m

/-! ## A machine in front of an input -/

theorem Reader.Reads.length_le {r r' : Reader} {mode mode' : Mode} {ts : List Token}
    (h : Reads r mode ts r' mode') : ts.length ≤ r.rest.length := by
  induction h with
  | nil r mode => exact Nat.zero_le _
  | @cons r _ mode _ ts hne _ ih =>
    have hlt := next_rest_length_lt mode hne
    rw [List.length_cons]
    omega

namespace Machine

/-- A machine stands in front of an input. -/
structure Reads (m : Machine) (i : Input) : Prop where
  proper : i.Proper
  bound : i.tokens.length ≤ m.source.scanner.text.length
  ahead : m.source.Ahead i.eof i.tokens
  taken : m.taken = i.taken
  takenEnd : m.takenEnd = i.takenEnd
  lastKind : m.lastKind = i.lastKind

/-- What a machine has left between two states. -/
structure Leaves (m m' : Machine) (o : Output) : Prop where
  slots : m'.slots = m.slots ++ o.events.map some
  pending : m'.pending = m.pending
  diagnostics : m'.diagnostics = m.diagnostics ++ o.diagnostics
  resyncs : m'.resyncs = m.resyncs ++ o.resyncs
  text : m'.source.scanner.text = m.source.scanner.text

theorem Leaves.trans {m₁ m₂ m₃ : Machine} {o p : Output} (h : m₁.Leaves m₂ o) (h' : m₂.Leaves m₃ p) :
    m₁.Leaves m₃ (o ++ p) where
  slots := by rw [h'.slots, h.slots, Output.events_append, List.map_append, List.append_assoc]
  pending := h'.pending.trans h.pending
  diagnostics := by rw [h'.diagnostics, h.diagnostics, Output.diagnostics_append, List.append_assoc]
  resyncs := by rw [h'.resyncs, h.resyncs, Output.resyncs_append, List.append_assoc]
  text := h'.text.trans h.text

/-- Only the source has changed. -/
theorem Leaves.of_source {m : Machine} {source : Source}
    (h : source.scanner.text = m.source.scanner.text) : m.Leaves { m with source } {} :=
  ⟨(List.append_nil _).symm, rfl, (List.append_nil _).symm, (List.append_nil _).symm, h⟩

theorem Leaves.refl (m : Machine) : m.Leaves m {} := .of_source rfl

end Machine

/-- An action that does what a rule does. -/
def Action.Carries {α : Type} (a : Action α) (p : Rule α) : Prop :=
  ∀ (m : Machine) (i : Input), m.Reads i → ∃ m', a m = .ok ((p i).value, m') ∧
    m'.Reads (p i).rest ∧ m.Leaves m' (p i).output

namespace Action.Carries

open Machine

variable {α β : Type}

theorem pure (x : α) : Carries (Pure.pure x : Action α) (Pure.pure x) :=
  fun m _ h => ⟨m, rfl, h, .refl m⟩

theorem bind {a : Action α} {p : Rule α} {f : α → Action β} {g : α → Rule β} (ha : Carries a p)
    (hf : ∀ x, Carries (f x) (g x)) : Carries (a >>= f) (p >>= g) := by
  intro m i h
  obtain ⟨m₁, hrun, hreads, hleaves⟩ := ha m i h
  obtain ⟨m₂, hrun', hreads', hleaves'⟩ := hf _ m₁ _ hreads
  refine ⟨m₂, ?_, hreads', hleaves.trans hleaves'⟩
  change (a m >>= fun r => f r.1 r.2) = _
  rw [hrun, Checked.ok_bind]
  exact hrun'

theorem ite {c : Prop} [Decidable c] {a b : Action α} {p q : Rule α} (ha : Carries a p)
    (hb : Carries b q) : Carries (if c then a else b) (if c then p else q) := by
  split_ifs
  · exact ha
  · exact hb

theorem peek (n : Nat) : Carries (Machine.peek n) (Rule.peek n) := by
  intro m i h
  obtain ⟨source, hnth, hahead, htext⟩ := Source.nth_eq h.ahead n
  refine ⟨{ m with source }, ?_, { h with bound := htext ▸ h.bound, ahead := hahead }, .of_source htext⟩
  rw [Machine.peek, hnth]
  rfl

theorem report (d : Diagnostic) : Carries (Machine.report d) (Rule.report d.problem d.span) :=
  fun _ _ h => ⟨_, rfl, { h with },
    ⟨(List.append_nil _).symm, rfl, rfl, (List.append_nil _).symm, rfl⟩⟩

theorem missing (e : Expected) :
    Carries (fun m => Machine.report ⟨.missing e, .empty m.takenEnd⟩ m) (Rule.missing e) := by
  intro m i h
  obtain ⟨m', hrun, hreads, hleaves⟩ := report ⟨.missing e, .empty m.takenEnd⟩ m i h
  refine ⟨m', hrun, hreads, ?_⟩
  rwa [Rule.missing, ← h.takenEnd]

theorem resync (r : Resync) : Carries (Machine.resync r) (Rule.resync r) :=
  fun _ _ h => ⟨_, rfl, { h with },
    ⟨(List.append_nil _).symm, rfl, (List.append_nil _).symm, rfl, rfl⟩⟩

theorem taken : Carries (fun m => .ok (m.taken, m)) Rule.taken := by
  intro m i h
  refine ⟨m, ?_, h, .refl m⟩
  change Except.ok (m.taken, m) = _
  rw [h.taken]
  rfl

/-! ## Line ends -/

theorem kind_newlineRun {eof : Token} (he : eof.kind = .eof) (ts : List Token) :
    (Input.nth eof (Input.newlineRun ts) ts).kind ≠ .newline := by
  induction ts with
  | nil =>
    rw [Input.nth, he]
    exact Kind.noConfusion
  | cons t ts ih =>
    rw [Input.newlineRun]
    by_cases ht : t.kind.isTrivia = true
    · rwa [if_pos ht, Input.nth_cons_trivia ht]
    · have ht' : t.kind.isTrivia = false := by simpa using ht
      rw [if_neg ht]
      split_ifs with hnl
      · rwa [Nat.add_comm, Input.nth_succ_cons ht']
      · rwa [Input.nth_zero_cons ht']

theorem newlineRun_le (ts : List Token) : Input.newlineRun ts ≤ ts.length := by
  induction ts with
  | nil => exact Nat.le_refl 0
  | cons t ts ih =>
    rw [Input.newlineRun, List.length_cons]
    split_ifs <;> omega

theorem newlinesFrom {rounds n : Nat} {m : Machine} {i : Input} (h : m.Reads i)
    (hn : n ≤ Input.newlineRun i.tokens) (hrounds : Input.newlineRun i.tokens < n + rounds) :
    ∃ m', Machine.newlinesFrom rounds n m = .ok (Input.newlineRun i.tokens, m') ∧ m'.Reads i ∧
      m.Leaves m' {} := by
  induction rounds generalizing n m with
  | zero => omega
  | succ rounds ih =>
    obtain ⟨m₁, hpeek, hreads, hleaves⟩ := peek n m i h
    have hstep : Machine.newlinesFrom (rounds + 1) n m =
        (if (i.peek n).kind = .newline then Machine.newlinesFrom rounds (n + 1) else Pure.pure n) m₁ := by
      change (Machine.peek n m >>= fun r => (if r.1.kind = .newline then
        Machine.newlinesFrom rounds (n + 1) else Pure.pure n : Action Nat) r.2) = _
      rw [hpeek, Checked.ok_bind]
      rfl
    rw [hstep]
    by_cases hlt : n < Input.newlineRun i.tokens
    · have hk : (i.peek n).kind = .newline := Rule.kind_nth_newlineRun i.eof i.tokens n hlt
      rw [if_pos hk]
      obtain ⟨m', hrun, hreads', hleaves'⟩ := ih hreads hlt (by omega)
      exact ⟨m', hrun, hreads', hleaves.trans hleaves'⟩
    · obtain rfl : n = Input.newlineRun i.tokens := by omega
      have hk : (i.peek (Input.newlineRun i.tokens)).kind ≠ .newline :=
        kind_newlineRun h.proper.eof i.tokens
      rw [if_neg hk]
      exact ⟨m₁, rfl, hreads, hleaves⟩

theorem newlines : Carries Machine.newlines Rule.newlines := by
  intro m i h
  have hle := newlineRun_le i.tokens
  have hbound := h.bound
  exact newlinesFrom h (Nat.zero_le _) (by omega)

/-! ## Tokens, nodes and loops -/

theorem takeTrivia : Carries Machine.flush Rule.takeTrivia := by
  intro m i h
  obtain ⟨source, htake, hahead, htext⟩ := Source.takeTrivia_eq h.ahead
  refine ⟨{ m with
      source
      slots := m.slots ++ (i.tokens.takeWhile (·.kind.isTrivia)).map fun t => some (.token t.kind t.span)
      diagnostics := m.diagnostics ++
        (i.tokens.takeWhile (·.kind.isTrivia)).filterMap Rule.commentDiagnostic? },
    by rw [Machine.flush, htake]; rfl, ⟨?_, ?_, hahead, h.taken, h.takenEnd, h.lastKind⟩, ?_⟩
  · exact h.proper.of_suffix rfl (List.dropWhile_suffix _)
  · have := (List.dropWhile_suffix (l := i.tokens) fun t : Token => t.kind.isTrivia).length_le
    have hbound := h.bound
    simp only [Rule.takeTrivia, htext]
    omega
  · exact ⟨by rw [Rule.takeTrivia, List.map_map]; rfl, rfl, rfl, (List.append_nil _).symm, htext⟩

theorem takeToken {m : Machine} {i : Input} {t : Token} {us : List Token} (h : m.Reads i)
    (ht : i.tokens = t :: us) (hk : t.kind.isTrivia = false) (kind : Kind) :
    ∃ m', Machine.takeToken kind m = .ok ((), m') ∧ m'.Reads (i.after t us) ∧
      m.Leaves m' (.token kind t.span) := by
  have hahead := h.ahead
  rw [ht] at hahead
  have hne : t.kind ≠ .eof := h.proper.ne_eof (by rw [ht]; exact List.mem_cons_self)
  obtain ⟨source, hbump, hahead', htext⟩ := Source.bump_eq hahead hk hne
  refine ⟨{ m with
      source
      slots := m.slots ++ [some (.token kind t.span)]
      taken := m.taken + 1
      takenEnd := t.span.stop
      lastKind := some t.kind },
    by rw [Machine.takeToken, hbump]; rfl, ⟨?_, ?_, hahead', ?_, rfl, rfl⟩, ?_⟩
  · exact h.proper.of_suffix rfl ⟨[t], ht.symm⟩
  · have hbound := h.bound
    rw [ht, List.length_cons] at hbound
    simp only [Input.after, htext]
    omega
  · simp only [Input.after, h.taken]
  · exact ⟨rfl, rfl, (List.append_nil _).symm, (List.append_nil _).symm, htext⟩

theorem bumpAs (kind : Kind) : Carries (Machine.bumpAs kind) (Rule.bumpAs kind) := by
  intro m i h
  obtain ⟨m₁, hpeek, hreads, hleaves⟩ := peek 0 m i h
  have hstep : Machine.bumpAs kind m = (if (i.peek 0).kind = .eof then Pure.pure () else
      Machine.flush >>= fun _ => Machine.takeToken kind : Action Unit) m₁ := by
    change (Machine.peek 0 m >>= fun r => (if r.1.kind = .eof then Pure.pure () else
      Machine.flush >>= fun _ => Machine.takeToken kind : Action Unit) r.2) = _
    rw [hpeek, Checked.ok_bind]
    rfl
  rcases i.next_or_done with ⟨v, t, us, hn⟩ | hd
  · have hne := h.proper.ne_eof hn.mem
    obtain ⟨m₂, hflush, hreads₂, hleaves₂⟩ := takeTrivia m₁ i hreads
    rw [Rule.takeTrivia_run hn.tokens hn.trivia hn.head?] at hflush hreads₂ hleaves₂
    obtain ⟨m₃, htake, hreads₃, hleaves₃⟩ := takeToken hreads₂ rfl hn.significant kind
    rw [Rule.bumpAs_next hn hne]
    refine ⟨m₃, ?_, hreads₃, hleaves.trans (hleaves₂.trans hleaves₃)⟩
    rw [hstep, hn.peek_zero, if_neg hne]
    change (Machine.flush m₁ >>= fun r => Machine.takeToken kind r.2) = _
    rw [hflush, Checked.ok_bind]
    exact htake
  · rw [Rule.bumpAs_done hd h.proper.eof]
    refine ⟨m₁, ?_, hreads, hleaves⟩
    rw [hstep, hd.peek, h.proper.eof, if_pos rfl]
    rfl

theorem bump : Carries (Machine.peek 0 >>= fun t => Machine.bumpAs t.kind) Rule.bump :=
  (peek 0).bind fun t => bumpAs t.kind

theorem enclose {a : Action Kind} {body : Rule Kind} (hb : Carries a body) :
    Carries (Machine.begin >>= fun place => a >>= fun kind => Machine.complete place kind)
      (Rule.enclose body) := by
  intro m i h
  obtain ⟨m₁, hrun, hreads, hleaves⟩ := hb
    { m with slots := m.slots ++ [none], pending := m.slots.length :: m.pending } i { h with }
  have hslots := hleaves.slots
  have hplace : m₁.slots[m.slots.length]? = some none := by
    rw [hslots, List.getElem?_append_left (by simp), List.getElem?_concat_length]
  refine ⟨{ m₁ with
      slots := m.slots ++ (Output.enclosed (body i).value (body i).output).events.map some
      pending := m.pending }, ?_, { hreads with },
    ⟨rfl, rfl, hleaves.diagnostics, hleaves.resyncs, hleaves.text⟩⟩
  change (a _ >>= fun r => Machine.complete m.slots.length r.1 r.2) = _
  rw [hrun, Checked.ok_bind, Machine.complete, if_pos hplace, hslots, hleaves.pending,
    List.erase_cons_head]
  simp [Output.enclosed, Rule.enclose]

theorem loop {a : Action Bool} {step : Rule Bool} (hs : Carries a step) (hp : Rule.Progress step)
    {rounds : Nat} {m : Machine} {i : Input} (h : m.Reads i) (hrounds : i.tokens.length < rounds) :
    ∃ m', Machine.loop a rounds m = .ok ((), m') ∧ m'.Reads (Rule.repeatWhile step i).rest ∧
      m.Leaves m' (Rule.repeatWhile step i).output := by
  induction rounds generalizing m i with
  | zero => omega
  | succ rounds ih =>
    obtain ⟨m₁, hrun, hreads, hleaves⟩ := hs m i h
    have hstep : Machine.loop a (rounds + 1) m =
        (if (step i).value = true then Machine.loop a rounds else Pure.pure () : Action Unit) m₁ := by
      change (a m >>= fun r => (if r.1 = true then Machine.loop a rounds else Pure.pure () :
        Action Unit) r.2) = _
      rw [hrun, Checked.ok_bind]
    rw [hstep]
    cases hv : (step i).value with
    | true =>
      have hlt := hp i h.proper hv
      obtain ⟨m', hloop, hreads', hleaves'⟩ := ih hreads (by omega)
      rw [Rule.repeatWhile_pos hv hlt]
      exact ⟨m', hloop, hreads', hleaves.trans hleaves'⟩
    | false =>
      rw [Rule.repeatWhile_neg (by simp [hv])]
      exact ⟨m₁, rfl, hreads, hleaves⟩

theorem repeatWhile {a : Action Bool} {step : Rule Bool} (hs : Carries a step)
    (hp : Rule.Progress step) :
    Carries (fun m => Machine.loop a (m.source.scanner.text.length + 1) m) (Rule.repeatWhile step) :=
  fun _ _ h => hs.loop hp h (Nat.lt_succ_of_le h.bound)

end Action.Carries

/-- **Every rule is carried out by its action, without fault.** -/
theorem Rule.Script.carries {α : Type} {p : Rule α} (h : Script p) : h.run.Carries p := by
  induction h with
  | pure a => exact .pure a
  | bind _ _ ihp ihf => exact ihp.bind ihf
  | ite c _ _ ihp ihq => exact ihp.ite ihq
  | peek n => exact .peek n
  | newlines => exact .newlines
  | taken => exact .taken
  | report problem h span => exact .report ⟨problem, span⟩
  | missing e => exact .missing e
  | resync r => exact .resync r
  | takeTrivia => exact .takeTrivia
  | bump => exact .bump
  | bumpAs kind h => exact .bumpAs kind
  | enclose _ ih => exact ih.enclose
  | repeatWhile h _ ih => exact ih.repeatWhile h

/-! ## Whole runs -/

namespace Machine

/-- The machine at an offset of a text. -/
def start (text : Text) (offset takenEnd : Nat) (mode : Mode) : Checked Machine := do
  let scanner ← Scanner.resume text offset
  return ⟨⟨scanner, mode, []⟩, [], [], [], [], 0, takenEnd, none⟩

/-- What is left when no node is open any more. -/
def finish (m : Machine) : Checked Output :=
  match m.pending with
  | [] => .ok ⟨m.slots.reduceOption, m.diagnostics, m.resyncs⟩
  | place :: _ => .error (.abandoned place)

/-- A machine in front of an input that has left nothing yet. -/
structure Fresh (m : Machine) (i : Input) : Prop extends m.Reads i where
  slots : m.slots = []
  pending : m.pending = []
  diagnostics : m.diagnostics = []
  resyncs : m.resyncs = []

theorem start_eq {a b : Text} (h : (a ++ b).byteSize < Checked.limit) (takenEnd : Nat) (mode : Mode) :
    ∃ m, start (a ++ b) a.byteSize takenEnd mode = .ok m ∧
      m.Fresh (.ofText (a ++ b) a.byteSize takenEnd mode) := by
  obtain ⟨s, hresume, hshows, htext⟩ := Scanner.resume_eq h
  refine ⟨⟨⟨s, mode, []⟩, [], [], [], [], 0, takenEnd, none⟩, by rw [start, hresume]; rfl,
    ⟨Input.proper_ofText _ _ _ _, ?_, ⟨_, _, hshows, rfl, .inr ⟨rfl, rfl, rfl⟩⟩, rfl, rfl, rfl⟩,
    rfl, rfl, rfl, rfl⟩
  obtain ⟨r', mode', hreads, _⟩ := (Reader.resume (a ++ b) a.byteSize).reads_tokens mode
  obtain ⟨passed, hpassed, _⟩ := hshows.rest
  refine hreads.length_le.trans ?_
  change _ ≤ s.text.length
  rw [hpassed, List.length_append]
  omega

theorem Fresh.leaves {m m' : Machine} {i j : Input} (h : m.Fresh i) (hr : m'.Reads j)
    (hl : m.Leaves m' {}) : m'.Fresh j where
  toReads := hr
  slots := by rw [hl.slots, h.slots]; rfl
  pending := hl.pending.trans h.pending
  diagnostics := by rw [hl.diagnostics, h.diagnostics]; rfl
  resyncs := by rw [hl.resyncs, h.resyncs]; rfl

/-- A whole run of a rule leaves what the rule leaves. -/
theorem Fresh.run {α : Type} {p : Rule α} (hp : Rule.Script p) {m : Machine} {i : Input}
    (h : m.Fresh i) : ∃ m', hp.run m = .ok ((p i).value, m') ∧ m'.Reads (p i).rest ∧
      m'.finish = .ok (p i).output := by
  obtain ⟨m', hrun, hreads, hleaves⟩ := hp.carries m i h.toReads
  refine ⟨m', hrun, hreads, ?_⟩
  have hpending := hleaves.pending
  rw [h.pending] at hpending
  rw [finish, hpending, hleaves.slots, hleaves.diagnostics, hleaves.resyncs, h.slots, h.diagnostics,
    h.resyncs, List.nil_append, List.nil_append, List.nil_append, List.reduceOption,
    List.filterMap_map]
  simp

/-- Parses a document. -/
def document (text : Text) : Checked Output := do
  let m ← start text 0 0 .statementStart
  let (_, m) ← Rule.documentScript.run m
  m.finish

/-- Parses one statement out of a larger text, if one starts exactly at an offset. -/
def statement (text : Text) (offset resumeAfter : Nat) (mode : Mode) (rule : StatementRule) :
    Checked (Option Fragment) := do
  let m ← start text offset resumeAfter mode
  let (first, m) ← peek 0 m
  if Grammar.statementEnd.contains first.kind || first.span.start != offset then return none
  else
    let (_, m) ← (Rule.statementScript rule).run m
    let output ← m.finish
    return m.lastKind.map fun kind => ⟨output, m.takenEnd, kind⟩

/-- **A document is parsed without fault.** -/
theorem document_eq {text : Text} (h : text.byteSize < Checked.limit) :
    document text = .ok (Rule.document (.ofText text 0 0 .statementStart)).output := by
  obtain ⟨m, hstart, hfresh⟩ := @start_eq [] text h 0 .statementStart
  obtain ⟨m', hrun, _, hfinish⟩ := hfresh.run Rule.documentScript
  change start text 0 0 .statementStart = .ok m at hstart
  rw [document, hstart, Checked.ok_bind, hrun, Checked.ok_bind]
  exact hfinish

/-- **A statement is parsed without fault.** -/
theorem statement_eq {a b : Text} (h : (a ++ b).byteSize < Checked.limit) (resumeAfter : Nat)
    (mode : Mode) (rule : StatementRule) :
    statement (a ++ b) a.byteSize resumeAfter mode rule =
      .ok (parseStatementAt (a ++ b) a.byteSize resumeAfter mode rule) := by
  obtain ⟨m, hstart, hfresh⟩ := start_eq h resumeAfter mode
  obtain ⟨m₁, hpeek, hreads, hleaves⟩ := Action.Carries.peek 0 m _ hfresh.toReads
  obtain ⟨m₂, hrun, hreads₂, hfinish⟩ := (hfresh.leaves hreads hleaves).run (Rule.statementScript rule)
  simp only [Rule.peek] at hpeek hrun hreads₂ hfinish
  rw [statement, hstart, Checked.ok_bind, hpeek, Checked.ok_bind, parseStatementAt]
  simp only
  split_ifs
  · rfl
  · rw [hrun, Checked.ok_bind, hfinish, Checked.ok_bind, hreads₂.lastKind, hreads₂.takenEnd]
    rfl

end Machine

end LpFormat
