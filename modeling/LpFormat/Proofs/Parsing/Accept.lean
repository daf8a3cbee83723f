import LpFormat.Proofs.Parsing.Sections

/-!
# Rules that accept words

A rule accepts a language if it takes any word of it without a fault, wherever what follows the word
is fit to follow.

* `Input.Plain`: an input without trivia;
* `First`: what words of a language and what follows them begin with;
* `Rule.Accepts`, with a lemma for each way to build a rule.
-/

namespace LpFormat

open Computability

/-- An input without trivia. -/
structure Input.Plain (i : Input) : Prop where
  proper : i.Proper
  significant : ∀ t ∈ i.tokens, t.kind.isTrivia = false

/-- The kind of the first token of a list, or the end. -/
def nextKind : List Token → Kind
  | [] => .eof
  | t :: _ => t.kind

namespace Input.Plain

variable {i : Input} {t : Token} {us : List Token}

theorem next (h : i.Plain) (ht : i.tokens = t :: us) : i.Next [] t us :=
  ⟨ht, allTrivia_nil, h.significant t (ht ▸ List.mem_cons_self)⟩

theorem after (h : i.Plain) (ht : i.tokens = t :: us) : (i.after t us).Plain := by
  refine ⟨h.proper.of_suffix rfl ⟨[t], ht.symm⟩, fun u hu => h.significant u ?_⟩
  rw [ht]
  exact List.mem_cons_of_mem _ hu

theorem peek_zero (h : i.Plain) (ht : i.tokens = t :: us) : i.peek 0 = t := (h.next ht).peek_zero

theorem peek_succ (h : i.Plain) (ht : i.tokens = t :: us) (n : Nat) :
    i.peek (n + 1) = (i.advance us).peek n := (h.next ht).peek_succ n

theorem advance (h : i.Plain) (ht : i.tokens = t :: us) : (i.advance us).Plain := by
  refine ⟨h.proper.of_suffix rfl ⟨[t], ht.symm⟩, fun u hu => h.significant u ?_⟩
  rw [ht]
  exact List.mem_cons_of_mem _ hu

theorem kind_peek (h : i.Plain) : (i.peek 0).kind = nextKind i.tokens := by
  cases ht : i.tokens with
  | nil =>
    rw [Input.peek, ht]
    exact h.proper.eof
  | cons t us => rw [h.peek_zero ht, nextKind]

theorem kind_peek_drop (h : i.Plain) (n : Nat) : (i.peek n).kind = nextKind (i.tokens.drop n) := by
  induction n generalizing i with
  | zero => exact h.kind_peek
  | succ n ih =>
    cases ht : i.tokens with
    | nil =>
      rw [Input.peek, ht]
      exact h.proper.eof
    | cons t us => rw [h.peek_succ ht, ih (h.advance ht), List.drop_succ_cons, Input.advance]

end Input.Plain

/-! ## What words begin with -/

/-- Words of a language, with something fit to follow them, begin with certain kinds. -/
def First (S : Kind → Prop) (l : Language Token) (F : List Token → Prop) : Prop :=
  ∀ w ∈ l, ∀ us, F us → S (nextKind (w ++ us))

namespace First

variable {S : Kind → Prop} {l m : Language Token} {F G : List Token → Prop}

theorem one (h : ∀ us, F us → S (nextKind us)) : First S 1 F := by
  rintro w rfl us hus
  exact h us hus

theorem single {p : Token → Prop} (h : ∀ t, p t → S t.kind) : First S (single p) F := by
  rintro w ⟨t, ht, rfl⟩ us _
  exact h t ht

theorem kind {k : Kind} (h : S k) : First S (Production.one k) F := single fun _ ht => ht ▸ h

theorem add (hl : First S l F) (hm : First S m F) : First S (l + m) F := by
  rintro w (hw | hw)
  · exact hl w hw
  · exact hm w hw

theorem mul (hl : First S l G) (hm : ∀ w ∈ m, ∀ us, F us → G (w ++ us)) : First S (l * m) F := by
  rintro _ ⟨u, hu, v, hv, rfl⟩ us hus
  change S (nextKind (u ++ v ++ us))
  rw [List.append_assoc]
  exact hl u hu _ (hm v hv us hus)

/-- Words that are not empty decide. -/
theorem mul_left (hl : First S l fun _ => True) : First S (l * m) F := hl.mul fun _ _ _ _ => trivial

theorem optional_mul (hl : First S l fun _ => True) (hm : First S m F) :
    First S (optional l * m) F := by
  rw [LpFormat.optional_mul]
  exact hl.mul_left.add hm

theorem kstar_mul (hl : First S l fun _ => True) (hm : First S m F) : First S (l∗ * m) F := by
  rintro _ ⟨u, hu, v, hv, rfl⟩ us hus
  obtain ⟨ws, rfl, hws⟩ := Language.mem_kstar.1 hu
  change S (nextKind (ws.flatten ++ v ++ us))
  induction ws with
  | nil => exact hm v hv us hus
  | cons x xs ih =>
    obtain ⟨hx, hxs⟩ := List.forall_mem_cons.1 hws
    rw [List.flatten_cons, List.append_assoc, List.append_assoc]
    exact hl x hx _ trivial

theorem kstar (hl : First S l fun _ => True) (h : ∀ us, F us → S (nextKind us)) :
    First S l∗ F := by
  have := hl.kstar_mul (First.one h)
  rwa [mul_one] at this

end First

/-! ## Accepting -/

namespace Rule

/-- An input begins with a word of a language and goes on with something fit to follow. -/
structure Fits (l : Language Token) (F : List Token → Prop) (i : Input) (us : List Token) :
    Prop where
  plain : i.Plain
  exists_word : ∃ w ∈ l, i.tokens = w ++ us
  follow : F us

/-- A rule takes any word of a language without a fault, and with a given answer. -/
def Accepts {α : Type} (p : Rule α) (a : α) (l : Language Token) (F : List Token → Prop) : Prop :=
  ∀ i us, Fits l F i us → (p i).value = a ∧ (p i).output.diagnostics = [] ∧ (p i).rest.Plain ∧
    (p i).rest.tokens = us

theorem Fits.kind {S : Kind → Prop} {l : Language Token} {F : List Token → Prop} {i : Input}
    {us : List Token} (h : Fits l F i us) (hS : First S l F) : S (i.peek 0).kind := by
  obtain ⟨w, hw, ht⟩ := h.exists_word
  rw [h.plain.kind_peek, ht]
  exact hS w hw us h.follow

theorem Fits.mono {l m : Language Token} {F G : List Token → Prop} {i : Input} {us : List Token}
    (h : Fits l F i us) (hl : l ≤ m) (hF : ∀ us, F us → G us) : Fits m G i us := by
  obtain ⟨w, hw, ht⟩ := h.exists_word
  exact ⟨h.plain, ⟨w, hl hw, ht⟩, hF us h.follow⟩

namespace Accepts

variable {α β : Type} {p q : Rule α} {a : α} {b : β} {f : α → Rule β} {l m : Language Token}
  {F G : List Token → Prop}

theorem weaken (h : Accepts p a m G) (hl : l ≤ m) (hF : ∀ us, F us → G us) : Accepts p a l F :=
  fun i us hfit => h i us (hfit.mono hl hF)

theorem pure : Accepts (Pure.pure a : Rule α) a 1 F := by
  rintro i us ⟨hi, ⟨w, rfl, ht⟩, _⟩
  exact ⟨rfl, rfl, hi, ht⟩

theorem bind (hp : Accepts p a l G) (hf : Accepts (f a) b m F)
    (h : ∀ w ∈ m, ∀ us, F us → G (w ++ us)) : Accepts (p >>= f) b (l * m) F := by
  rintro i us ⟨hi, ⟨_, ⟨u, hu, v, hv, rfl⟩, ht⟩, hus⟩
  have ht' : i.tokens = u ++ (v ++ us) := by
    rw [ht]
    exact List.append_assoc u v us
  obtain ⟨ha, hd, hplain, hrest⟩ := hp i (v ++ us) ⟨hi, ⟨u, hu, ht'⟩, h v hv us hus⟩
  obtain ⟨hb, hd', hplain', hrest'⟩ := hf (p i).rest us ⟨hplain, ⟨v, hv, hrest⟩, hus⟩
  rw [bind_run, ha]
  refine ⟨hb, ?_, hplain', hrest'⟩
  rw [Output.diagnostics_append, hd, hd']
  rfl

/-- A rule that does not look at what follows it. -/
theorem then_ (hp : Accepts p a l fun _ => True) (hf : Accepts (f a) b m F) :
    Accepts (p >>= f) b (l * m) F := hp.bind hf fun _ _ _ _ => trivial

/-- An answer of its own after a rule. -/
theorem answer (h : Accepts p a l F) (b : β) :
    Accepts (p >>= fun _ => (Pure.pure b : Rule β)) b l F := by
  intro i us hfit
  obtain ⟨_, hd, hplain, hrest⟩ := h i us hfit
  rw [bind_pure_run]
  exact ⟨rfl, hd, hplain, hrest⟩

theorem add (hl : Accepts p a l F) (hm : Accepts p a m F) : Accepts p a (l + m) F := by
  rintro i us ⟨hi, ⟨w, hw | hw, ht⟩, hus⟩
  · exact hl i us ⟨hi, ⟨w, hw, ht⟩, hus⟩
  · exact hm i us ⟨hi, ⟨w, hw, ht⟩, hus⟩

theorem branch_pos {c : Input → Prop} [∀ i, Decidable (c i)] (hc : ∀ i us, Fits l F i us → c i)
    (hp : Accepts p a l F) : Accepts (fun i => (if c i then p else q) i) a l F := by
  intro i us hfit
  simp only [if_pos (hc i us hfit)]
  exact hp i us hfit

theorem branch_neg {c : Input → Prop} [∀ i, Decidable (c i)] (hc : ∀ i us, Fits l F i us → ¬ c i)
    (hq : Accepts q a l F) : Accepts (fun i => (if c i then p else q) i) a l F := by
  intro i us hfit
  simp only [if_neg (hc i us hfit)]
  exact hq i us hfit

theorem ifAt_pos {s : KindSet} (h : First (fun k => s.contains k = true) l F)
    (hp : Accepts p a l F) :
    Accepts (Rule.atSet s >>= fun b => if b = true then p else q) a l F :=
  branch_pos (c := fun i => s.contains (i.peek 0).kind = true) (fun _ _ hfit => hfit.kind h) hp

theorem ifAt_neg {s : KindSet} (h : First (fun k => ¬ s.contains k = true) l F)
    (hq : Accepts q a l F) :
    Accepts (Rule.atSet s >>= fun b => if b = true then p else q) a l F :=
  branch_neg (c := fun i => s.contains (i.peek 0).kind = true) (fun _ _ hfit => hfit.kind h) hq

theorem bumpAs_of {g : Input → Kind} {P : Token → Prop} :
    Accepts (fun i => Rule.bumpAs (g i) i) () (single P) F := by
  rintro i us ⟨hi, ⟨_, ⟨t, _, rfl⟩, ht⟩, _⟩
  have hn := hi.next ht
  have hrun := bumpAs_next hn (hi.proper.ne_eof hn.mem) (g i)
  change (Rule.bumpAs (g i) i).value = () ∧ (Rule.bumpAs (g i) i).output.diagnostics = [] ∧
    (Rule.bumpAs (g i) i).rest.Plain ∧ (Rule.bumpAs (g i) i).rest.tokens = us
  rw [hrun]
  exact ⟨rfl, rfl, hi.after ht, rfl⟩

theorem bumpAs {P : Token → Prop} (k : Kind) : Accepts (Rule.bumpAs k) () (single P) F :=
  bumpAs_of (g := fun _ => k)

theorem bump {P : Token → Prop} : Accepts Rule.bump () (single P) F :=
  bumpAs_of (g := fun i => (i.peek 0).kind)

theorem nodeOf {body : Rule Kind} {k : Kind} (h : Accepts body k l F) :
    Accepts (Rule.nodeOf body) () l F := by
  intro i us hfit
  obtain ⟨_, hd, hplain, hrest⟩ := h i us hfit
  have hrun : Rule.nodeOf body i = ⟨(), .trivia [] ++ .enclosed (body i).value (body i).output,
      (body i).rest⟩ :=
    nodeOf_run (i := i) (v := []) rfl allTrivia_nil
      (fun t ht => hfit.plain.significant t (List.mem_of_head? ht)) body
  rw [hrun]
  exact ⟨rfl, hd, hplain, hrest⟩

theorem node {p : Rule Unit} {k : Kind} (h : Accepts p () l F) : Accepts (Rule.node k p) () l F :=
  nodeOf (h.answer k)

/-- One round of a loop and the others. -/
theorem loop_cons {step : Rule Bool} (hgo : Accepts step true l G) (hne : ∀ w ∈ l, w ≠ [])
    (hmore : Accepts (Rule.repeatWhile step) () m F) (h : ∀ w ∈ m, ∀ us, F us → G (w ++ us)) :
    Accepts (Rule.repeatWhile step) () (l * m) F := by
  rintro i us ⟨hi, ⟨_, ⟨u, hu, v, hv, rfl⟩, ht⟩, hus⟩
  have ht' : i.tokens = u ++ (v ++ us) := by
    rw [ht]
    exact List.append_assoc u v us
  obtain ⟨hvalue, hd, hplain, hrest⟩ := hgo i _ ⟨hi, ⟨u, hu, ht'⟩, h v hv us hus⟩
  have hlt : (step i).rest.tokens.length < i.tokens.length := by
    have := List.length_pos_iff.2 (hne u hu)
    rw [hrest, ht']
    simp only [List.length_append]
    omega
  obtain ⟨_, hd', hplain', hrest'⟩ := hmore _ us ⟨hplain, ⟨v, hv, hrest⟩, hus⟩
  rw [repeatWhile_pos hvalue hlt]
  refine ⟨rfl, ?_, hplain', hrest'⟩
  rw [Output.diagnostics_append, hd, hd']
  rfl

/-- The end of a loop. -/
theorem loop_stop {step : Rule Bool} (hstop : Accepts step false l F) :
    Accepts (Rule.repeatWhile step) () l F := by
  intro i us hfit
  obtain ⟨hv, hd, hplain, hrest⟩ := hstop i us hfit
  rw [repeatWhile_neg (by simp [hv])]
  exact ⟨rfl, hd, hplain, hrest⟩

/-- Repetition, from the last word to the first. -/
theorem kstar_mul {p : Rule α} (hend : Accepts p a m F)
    (hcons : ∀ r ∈ l∗ * m, Accepts p a {r} F → Accepts p a (l * {r}) F) :
    Accepts p a (l∗ * m) F := by
  rintro i us ⟨hi, ⟨_, ⟨u, hu, v, hv, rfl⟩, ht⟩, hus⟩
  obtain ⟨ws, rfl, hws⟩ := Language.mem_kstar.1 hu
  suffices h : Accepts p a {ws.flatten ++ v} F from h i us ⟨hi, ⟨_, rfl, ht⟩, hus⟩
  clear ht hi hus hu
  induction ws with
  | nil =>
    refine hend.weaken ?_ fun _ h => h
    rintro w rfl
    exact hv
  | cons w ws ih =>
    obtain ⟨hw, hws⟩ := List.forall_mem_cons.1 hws
    have hr : ws.flatten ++ v ∈ l∗ * m :=
      Language.append_mem_mul (Language.mem_kstar.2 ⟨ws, rfl, hws⟩) hv
    refine (hcons _ hr (ih hws)).weaken ?_ fun _ h => h
    rintro x rfl
    rw [List.flatten_cons, List.append_assoc]
    exact Language.append_mem_mul hw rfl

/-- Rounds of a loop that do not look at what follows them. -/
theorem loop_kstar {step : Rule Bool} (hgo : Accepts step true l fun _ => True)
    (hne : ∀ w ∈ l, w ≠ []) (hmore : Accepts (Rule.repeatWhile step) () m F) :
    Accepts (Rule.repeatWhile step) () (l∗ * m) F :=
  kstar_mul hmore fun _ _ hr => loop_cons hgo hne hr fun _ _ _ _ => trivial

/-- A loop over words of one language, which are not empty. -/
theorem repeatWhile {step : Rule Bool} (hgo : Accepts step true l fun _ => True)
    (hne : ∀ w ∈ l, w ≠ []) (hstop : Accepts step false 1 F) :
    Accepts (Rule.repeatWhile step) () l∗ F :=
  (loop_kstar hgo hne (loop_stop hstop)).weaken (mul_one _).ge fun _ h => h

end Accepts

end Rule

end LpFormat
