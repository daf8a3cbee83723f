import LpFormat.Proofs.Parsing.Document

/-!
# How rules are composed

Every rule of the grammar is composed of a few basic ones: looking ahead, reporting, taking a token,
a node around a rule, and loops that take a token in each round. A `Script` is such a composition;
what holds of the basic rules and of each way to compose them holds of the whole grammar.

* `Rule.Progress`: a step of a loop takes a token whenever it asks for another round, with
  `Rule.takeStep`, `Rule.skipStep`, `Rule.declarationStep`: the steps by name;
* `Rule.Script`: how a rule is composed;
* `Rule.statementScript`, **`Rule.documentScript`**: the rules of the grammar.
-/

namespace LpFormat.Rule

variable {α β : Type}

/-- A step that takes a token whenever it asks for another round. -/
def Progress (step : Rule Bool) : Prop :=
  ∀ i : Input, i.Proper → (step i).value = true → (step i).rest.tokens.length < i.tokens.length

theorem Progress.of_spec {step : Rule Bool} (h : ∀ n, Spec (fun _ => True) n (fun _ => True) step
    fun b j => b = true → n < j.taken) : Progress step := by
  intro i hi hv
  have hs := h i.taken i hi (Nat.le_refl _) trivial
  exact hs.length_lt (hs.post hv)

/-! ## Steps of loops -/

theorem inline_true : Inline fun _ => True := fun _ _ => trivial

/-- The step that takes a token of a set. -/
def takeStep (s : KindSet) : Rule Bool := do
  if ← atSet s then
    bump
    return true
  else return false

theorem bumpWhile_eq (s : KindSet) : bumpWhile s = repeatWhile (takeStep s) := rfl

theorem progress_takeStep {s : KindSet} (hs : ∀ k, s.contains k = true → k ≠ .eof) :
    Progress (takeStep s) := by
  refine .of_spec fun n => .ifAt ?_ (.pure fun _ _ => Bool.noConfusion)
  exact .bind (.bump_begun fun i _ h => ⟨hs _ h.2, trivial⟩) fun _ => .pure fun j h _ => h

/-- The step that skips what is left of a statement. -/
def skipStep : Rule Bool := do
  if ← atStatementEnd then return false
  else
    bump
    return true

theorem toStatementEnd_eq : toStatementEnd = repeatWhile skipStep := rfl

theorem progress_skipStep : Progress skipStep := by
  refine .of_spec fun n => .ifAt (.pure fun _ _ => Bool.noConfusion) ?_
  exact .bind (.bump_begun fun i _ h => ⟨ne_eof_of_not_at h.2, trivial⟩) fun _ => .pure fun j h _ => h

theorem progress_junkStep : Progress junkStep := by
  refine .of_spec fun n => .ifAt ?_ (.pure fun _ _ => Bool.noConfusion)
  exact .bind (spec_skipToken inline_true _ fun i h => h.2) fun _ => .pure fun j h _ => h

theorem progress_expressionStep : Progress expressionStep :=
  .of_spec fun _ => spec_expressionStep inline_true trivial

/-- The step that takes one more name. -/
def declarationStep : Rule Bool := do
  let kind ← current
  if Grammar.variableFirst.contains kind then
    variableName
    return true
  else if Grammar.junk.contains kind then
    skipToken .variableName
    return true
  else return false

theorem declaration_eq : declaration =
    node .declaration (repeatWhile declarationStep >>= fun _ => endOfStatement) := rfl

theorem progress_declarationStep : Progress declarationStep := by
  refine .of_spec fun n => .bind (.test (steady_kind.on _)) fun kind => .ite (fun hk => ?_) fun _ =>
    .ite (fun hj => ?_) fun _ => .pure fun _ _ => Bool.noConfusion
  · refine .bind (spec_variableName_begun inline_true ?_) fun _ => .pure fun j h _ => h
    rintro i ⟨_, rfl⟩
    exact hk
  · refine .bind (spec_skipToken inline_true _ ?_) fun _ => .pure fun j h _ => h
    rintro i ⟨_, rfl⟩
    exact hj

theorem progress_sosEntriesStep : Progress sosEntriesStep := by
  refine .of_spec fun n => spec_ifAtSosEntry ?_ (.pure fun _ _ => Bool.noConfusion)
  exact .bind ((spec_sosEntry inline_true).pre fun i h => h.2) fun _ => .pure fun j h _ => h

theorem progress_bodyStep (rule : StatementRule) : Progress (bodyStep rule) :=
  .of_spec fun _ => (spec_bodyStep inline_true trivial rule).post fun _ _ h => h.1

theorem progress_sectionsStep : Progress sectionsStep := by
  refine .of_spec fun n => (spec_sectionsStep inline_true ?_ trivial trivial).post fun _ _ h => h.1
  exact fun _ _ => trivial

theorem progress_afterEndStep : Progress afterEndStep :=
  .of_spec fun _ => (spec_afterEndStep inline_true.skips (fun _ _ => trivial) trivial).post
    fun _ _ h => h.1

/-! ## Scripts -/

/-- The number of line ends ahead. -/
def newlines : Rule Nat := fun i => ⟨Input.newlineRun i.tokens, {}, i⟩

/-- Notes a place where a statement is given up. -/
def resync (r : Resync) : Rule Unit := fun i => ⟨(), { resyncs := [r] }, i⟩

/-- How a rule is composed of basic ones. -/
inductive Script : {α : Type} → Rule α → Type 1 where
  | pure {α : Type} (a : α) : Script (Pure.pure a : Rule α)
  | bind {α β : Type} {p : Rule α} {f : α → Rule β} (hp : Script p) (hf : ∀ a, Script (f a)) :
      Script (p >>= f)
  | ite {α : Type} {p q : Rule α} (c : Prop) [Decidable c] (hp : Script p) (hq : Script q) :
      Script (if c then p else q)
  | peek (n : Nat) : Script (Rule.peek n)
  | newlines : Script Rule.newlines
  | taken : Script Rule.taken
  | report (problem : Problem) (h : problem ≠ .unclosedComment) (span : Span) :
      Script (Rule.report problem span)
  | missing (e : Expected) : Script (Rule.missing e)
  | resync (r : Resync) : Script (Rule.resync r)
  | takeTrivia : Script Rule.takeTrivia
  | bump : Script Rule.bump
  | bumpAs (kind : Kind) (h : kind.isTrivia = false) : Script (Rule.bumpAs kind)
  | enclose {body : Rule Kind} (hb : Script body) : Script (Rule.enclose body)
  | repeatWhile {step : Rule Bool} (h : Progress step) (hs : Script step) :
      Script (Rule.repeatWhile step)

namespace Script

/-- A rule that depends on an optional value. -/
def option {f : Option α → Rule β} (hn : Script (f none)) (hs : ∀ a, Script (f (some a))) :
    ∀ o, Script (f o)
  | none => hn
  | some a => hs a

/-- A composition of a rule is one of each rule that is equal to it. -/
def of_eq {p q : Rule α} (h : q = p) (hp : Script p) : Script q := h ▸ hp

def current : Script Rule.current := .bind (.peek 0) fun _ => .pure _

def atSet (s : KindSet) : Script (Rule.atSet s) := .bind .current fun _ => .pure _

def unexpected (e : Expected) : Script (Rule.unexpected e) :=
  .bind (.peek 0) fun _ => .report _ Problem.noConfusion _

def noteResync (e : Expected) : Script (Rule.noteResync e) := .bind (.peek 0) fun t => .resync ⟨t.span, e⟩

def nodeOf {body : Rule Kind} (hb : Script body) : Script (Rule.nodeOf body) :=
  .bind .takeTrivia fun _ => .enclose hb

def node (kind : Kind) {body : Rule Unit} (hb : Script body) : Script (Rule.node kind body) :=
  .nodeOf (.bind hb fun _ => .pure kind)

def bumpTimes : (n : Nat) → Script (Rule.bumpTimes n)
  | 0 => .pure ()
  | n + 1 => .bind .bump fun _ => bumpTimes n

def bumpWhile {s : KindSet} (hs : ∀ k, s.contains k = true → k ≠ .eof) : Script (Rule.bumpWhile s) :=
  .repeatWhile (progress_takeStep hs)
    (.bind (.atSet s) fun _ => .ite _ (.bind .bump fun _ => .pure _) (.pure _))

def skipToken (e : Expected) : Script (Rule.skipToken e) :=
  .bind (.unexpected e) fun _ => .node _ .bump

def recover (e : Expected) : Script (Rule.recover e) :=
  .bind (.atSet _) fun _ => .ite _ (.missing e) <|
    .bind (.unexpected e) fun _ => .bind (.noteResync e) fun _ => .node _ <|
      .repeatWhile progress_skipStep <|
        .bind (.atSet _) fun _ => .ite _ (.pure _) (.bind .bump fun _ => .pure _)

end Script

/-! ## The grammar -/

def invalidNumberScript : Script invalidNumber :=
  .bind (.peek 0) fun _ => .bind (.report _ Problem.noConfusion _) fun _ => .bump

def variableNameScript : Script variableName :=
  .bind .current fun _ => .ite _ invalidNumberScript .bump

def labelScript (separators : KindSet) : Script (label separators) :=
  .bind .current fun _ => .bind (.peek 1) fun _ =>
    .ite _ (.node _ (.bind .bump fun _ => .bump)) (.pure ())

def signsScript : Script (bumpWhile Grammar.signs) :=
  .bumpWhile fun _ h => ne_eof_of_inline (inline_signs _ h)

def termScript : Script term :=
  let variableUse : Script (atSet Grammar.variableFirst >>= fun b =>
      if b = true then variableName else missing .variableUse) :=
    .bind (.atSet _) fun _ => .ite _ variableNameScript (.missing _)
  .node _ <| .bind signsScript fun _ => .bind (.atSet _) fun _ =>
    .ite _ (.bind .bump fun _ => variableUse) <|
      .bind .current fun _ => .bind (.peek 1) fun _ =>
        .ite _ (.bind invalidNumberScript fun _ => variableUse) variableUse

def constantScript : Script constant :=
  .bind (.atSet _) fun _ => .ite _
    (.node _ <| .bind signsScript fun _ => .bind (.atSet _) fun _ => .ite _ .bump <|
      .bind .current fun _ => .ite _ invalidNumberScript (.missing _))
    (.recover _)

def comparisonTailScript : Script comparisonTail :=
  .bind (.atSet _) fun _ => .ite _ (.bind .bump fun _ => constantScript) (.recover _)

theorem continueLine_steps : continueLine = newlines >>= fun n => peek n >>= fun t =>
    if 0 < n ∧ (Grammar.termFirst.contains t.kind ∨ Grammar.junk.contains t.kind) then bumpTimes n
    else pure () := continueLine_eq

def continueLineScript : Script continueLine :=
  .of_eq continueLine_steps <| .bind .newlines fun n => .bind (.peek n) fun _ =>
    .ite _ (.bumpTimes n) (.pure ())

def operandScript : Script flatOperand :=
  .bind continueLineScript fun _ => .bind
    (.repeatWhile progress_junkStep <|
      .bind (.atSet _) fun _ => .ite _ (.bind (.skipToken _) fun _ => .pure _) (.pure _))
    fun _ => .bind (.atSet _) fun _ => .ite _ termScript (.missing _)

def expressionStepScript : Script expressionStep :=
  .of_eq expressionStep_eq <| .bind (.peek 0) fun _ => .ite _ (.bind .bump fun _ => .bind operandScript fun _ => .pure _) <|
    .ite _ (.bind termScript fun _ => .pure _) <|
      .ite _ (.bind (.skipToken _) fun _ => .pure _) (.pure _)

def expressionScript : Script expression :=
  .bind (.atSet _) fun _ => .ite _
    (.bind (.node _ <| .bind termScript fun _ =>
      .repeatWhile progress_expressionStep expressionStepScript) fun _ => .pure _)
    (.pure _)

/-! ## Statements -/

def endOfStatementScript : Script endOfStatement :=
  .bind (.atSet _) fun _ => .ite _ (.pure _) (.recover _)

def implicitScript : Script implicit :=
  let compared : Script (comparisonTail >>= fun _ => endOfStatement >>= fun _ =>
      (pure Kind.constraint : Rule Kind)) :=
    .bind comparisonTailScript fun _ => .bind endOfStatementScript fun _ => .pure _
  let plain : Script (endOfStatement >>= fun _ => (pure Kind.objective : Rule Kind)) :=
    .bind endOfStatementScript fun _ => .pure _
  .nodeOf <| .bind (labelScript _) fun _ => .bind expressionScript fun _ =>
    .bind (.atSet _) fun _ => .ite _
      (.ite _ compared (.bind (.missing _) fun _ => compared)) <|
      .bind (.atSet _) fun _ => .ite _ plain (.bind (.recover _) fun _ => plain)

def objectiveScript : Script objective :=
  .node _ <| .bind (labelScript _) fun _ => .bind expressionScript fun _ =>
    .bind (.atSet _) fun _ => .ite _ endOfStatementScript <|
      .bind (.recover _) fun _ => endOfStatementScript

def constraintScript : Script constraint :=
  let compared : Script (comparisonTail >>= fun _ => endOfStatement) :=
    .bind comparisonTailScript fun _ => endOfStatementScript
  .node _ <| .bind (labelScript _) fun _ => .bind expressionScript fun _ =>
    .bind (.atSet _) fun _ => .ite _
      (.ite _ compared (.bind (.missing _) fun _ => compared)) <|
      .bind (.recover _) fun _ => endOfStatementScript

def variableBoundScript : Script variableBound :=
  .bind (.peek 1) fun _ => .bind variableNameScript fun _ => .ite _ (.bumpAs _ rfl) <|
    .bind (.atSet _) fun _ => .ite _ (.bind .bump fun _ => constantScript) (.recover _)

def constantBoundScript : Script constantBound :=
  .bind constantScript fun _ => .bind (.atSet _) fun _ => .ite _
    (.bind .bump fun _ => .bind (.atSet _) fun _ => .ite _
      (.bind variableNameScript fun _ => .bind (.atSet _) fun _ =>
        .ite _ (.bind .bump fun _ => constantScript) (.pure _))
      (.recover _))
    (.recover _)

def boundScript : Script bound :=
  .node _ <| .bind (.atSet _) fun _ => .ite _
    (.bind variableBoundScript fun _ => endOfStatementScript)
    (.bind constantBoundScript fun _ => endOfStatementScript)

def declarationScript : Script declaration :=
  .node _ <| .bind
    (.repeatWhile progress_declarationStep <| .bind .current fun _ =>
      .ite _ (.bind variableNameScript fun _ => .pure _) <|
        .ite _ (.bind (.skipToken _) fun _ => .pure _) (.pure _))
    fun _ => endOfStatementScript

def atSosEntryScript : Script atSosEntry := .bind .current fun _ => .bind (.peek 1) fun _ => .pure _

def sosEntryScript : Script sosEntry :=
  .node _ <| .bind .bump fun _ => .bind .bump fun _ => constantScript

def sosEntriesScript : Script sosEntries :=
  .repeatWhile progress_sosEntriesStep <| .bind atSosEntryScript fun _ =>
    .ite _ (.bind sosEntryScript fun _ => .pure _) (.pure _)

def sosSetScript (labelled : Bool) : Script (sosSet labelled) :=
  let rest : Script (bumpAs .sosType >>= fun _ => bump >>= fun _ => sosEntries >>= fun _ =>
      endOfStatement) :=
    .bind (.bumpAs _ rfl) fun _ => .bind .bump fun _ => .bind sosEntriesScript fun _ =>
      endOfStatementScript
  .node _ <| .ite _ (.bind (labelScript _) fun _ => rest) rest

def sosItemScript : Script sosItem :=
  let labelled : Script atLabelledSosSet :=
    .bind (.peek 1) fun _ => .bind (.peek 2) fun _ => .bind (.peek 3) fun _ => .pure _
  let bare : Script atBareSosSet := .bind (.peek 0) fun _ => .bind (.peek 1) fun _ => .pure _
  .bind labelled fun _ => .bind bare fun _ => .ite _ (sosSetScript _) <|
    .bind atSosEntryScript fun _ => .ite _
      (.bind sosEntriesScript fun _ => endOfStatementScript) (.recover _)

def statementBodyScript : (rule : StatementRule) → Script (statementBody rule)
  | .implicit => implicitScript
  | .objective => objectiveScript
  | .constraint => constraintScript
  | .bound => boundScript
  | .declaration => declarationScript
  | .sos => sosItemScript

/-- How a statement is composed. -/
def statementScript (rule : StatementRule) : Script (statement rule) :=
  .bind .taken fun before =>
    let guarded : Script (safeguard rule before) :=
      .bind .taken fun _ => .bind .current fun _ => .ite _ (.skipToken _) (.pure _)
    .bind (.atSet _) fun _ => .ite _ (.bind (statementBodyScript rule) fun _ => guarded)
      (.bind (.recover _) fun _ => guarded)

/-! ## Documents -/

def bodyScript (rule : StatementRule) : Script (body rule) :=
  .repeatWhile (progress_bodyStep rule) <| .bind .current fun _ => .ite _ (.pure _) <|
    .ite _ (.bind .bump fun _ => .pure _) (.bind (statementScript rule) fun _ => .pure _)

def sectionBlockScript (s : SectionRule) : Script (sectionBlock s) :=
  .node _ <| .bind .bump fun _ => bodyScript s.rule

def sectionsScript : Script sections :=
  .repeatWhile progress_sectionsStep <| .bind (.peek 0) fun t =>
    Script.option (f := fun o => match o with
        | some s => do
          sectionBlock s
          if (← current) = .eof then report (.unterminatedSection s.name) t.span
          return true
        | none => return false)
      (.pure _)
      (fun s => .bind (sectionBlockScript s) fun _ => .bind .current fun _ =>
        .ite _ (.bind (.report _ Problem.noConfusion _) fun _ => .pure _) (.pure _))
      (Grammar.section? t.kind)

def afterEndScript : Script afterEnd :=
  .repeatWhile progress_afterEndStep <| .bind .current fun _ => .ite _ (.pure _) <|
    .ite _ (.bind .bump fun _ => .pure _) <|
      .ite _ (.bind (.skipToken _) fun _ => .pure _) (.bind (.recover _) fun _ => .pure _)

def endMarkScript : Script endMark :=
  .bind .current fun _ => .ite _ (.bind (.node _ .bump) fun _ => afterEndScript) (.pure _)

/-- **How a document is composed.** -/
def documentScript : Script document :=
  .enclose <| .bind (bodyScript _) fun _ => .bind sectionsScript fun _ =>
    .bind endMarkScript fun _ => .bind .takeTrivia fun _ => .pure _

end LpFormat.Rule
