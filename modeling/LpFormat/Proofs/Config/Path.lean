import LpFormat.Config.Path
import LpFormat.Proofs.Text.Scan
import Mathlib.Data.List.TakeWhile

/-!
# Paths with references

A path is cut into pieces, characters that stand for themselves and references to variables, and
its expansion is made of the values of the pieces.

* `Piece`, `Piece.text`, `Piece.value?`, `Piece.Before`: a piece, how it is written, what it stands
  for, and which text may follow it;
* `Fitted`, `exists_fitted`: every text is cut into pieces that fit;
* **`expandVariables?_pieces`**: the expansion is the values one after another, and absent if one of
  them is;
* `configPath_of_unset`, `configPath_of_home`, `configPath_of_value`: the place of the settings file
  when a variable names it.
-/

namespace LpFormat

/-- A piece of a path. -/
inductive Piece where
  /-- A character that stands for itself. -/
  | plain (c : Char)
  /-- Two dollars for one. -/
  | dollars
  /-- A name after a dollar. -/
  | named (name : Text)
  /-- Braces after a dollar. -/
  | braced (body : Text)

namespace Piece

/-- How a piece is written. -/
def text : Piece → Text
  | plain c => [c]
  | dollars => ['$', '$']
  | named name => '$' :: name
  | braced body => '$' :: '\x7b' :: (body ++ ['\x7d'])

/-- What a piece stands for. -/
def value? (env : Environment) : Piece → Option Text
  | plain c => some [c]
  | dollars => some ['$']
  | named name => env.get? name
  | braced body => bracedValue? env body

/-- What may follow a piece. A dollar stands for itself where it begins no reference, and a name is as
long as can be. -/
def Before (rest : Text) : Piece → Prop
  | plain c => c = '$' → ∀ d ∈ rest.head?, d ≠ '$' ∧ isNameChar d = false ∧ (d = '\x7b' → '\x7d' ∉ rest)
  | dollars => True
  | named name =>
    name ≠ [] ∧ (∀ c ∈ name, isNameChar c = true) ∧ ∀ c ∈ rest.head?, isNameChar c = false
  | braced body => '\x7d' ∉ body

end Piece

/-- The text of some pieces. -/
def pieceText (ps : List Piece) : Text := ps.flatMap Piece.text

/-- What some pieces stand for, one after another. -/
def pieceValue? (env : Environment) (ps : List Piece) : Option Text :=
  (ps.mapM (Piece.value? env)).map List.flatten

/-- Pieces that can stand one after another. -/
def Fitted : List Piece → Prop
  | [] => True
  | p :: ps => p.Before (pieceText ps) ∧ Fitted ps

theorem pieceText_cons (p : Piece) (ps : List Piece) : pieceText (p :: ps) = p.text ++ pieceText ps := rfl

theorem pieceValue?_cons (env : Environment) (p : Piece) (ps : List Piece) :
    pieceValue? env (p :: ps) = (p.value? env).bind fun v => (pieceValue? env ps).map (v ++ ·) := by
  rw [pieceValue?, pieceValue?, List.mapM_cons]
  cases p.value? env with
  | none => rfl
  | some v =>
    cases ps.mapM (Piece.value? env) <;> rfl

theorem Piece.length_text_pos (p : Piece) : 0 < p.text.length := by
  cases p <;> simp [Piece.text]

/-- One piece without a value is enough for there to be none. -/
theorem pieceValue?_eq_none {env : Environment} {ps : List Piece} {p : Piece} (hp : p ∈ ps)
    (hunset : p.value? env = none) : pieceValue? env ps = none := by
  induction ps with
  | nil => cases hp
  | cons q ps ih =>
    rw [pieceValue?_cons]
    obtain rfl | hp := List.mem_cons.1 hp
    · rw [hunset, Option.bind_none]
    · simp [ih hp]

/-! ## Every text is made of pieces -/

theorem exists_piece {cs : Text} (hne : cs ≠ []) :
    ∃ (p : Piece) (rest : Text), cs = p.text ++ rest ∧ p.Before rest := by
  obtain ⟨c, cs, rfl⟩ := List.exists_cons_of_ne_nil hne
  by_cases hplain : (Piece.plain c).Before cs
  · exact ⟨.plain c, cs, rfl, hplain⟩
  simp only [Piece.Before, not_forall] at hplain
  obtain ⟨rfl, d, hd, hplain⟩ := hplain
  obtain ⟨rest, rfl⟩ := List.head?_eq_some_iff.1 hd
  by_cases hdollar : d = '$'
  · exact ⟨.dollars, rest, by rw [hdollar]; rfl, trivial⟩
  cases hname : isNameChar d with
  | true =>
    refine ⟨.named ((d :: rest).takeWhile isNameChar), (d :: rest).dropWhile isNameChar, ?_, ?_,
      fun c hc => List.mem_takeWhile_imp hc, fun c hc => ?_⟩
    · rw [Piece.text, List.cons_append, List.takeWhile_append_dropWhile]
    · rw [List.takeWhile_cons_of_pos hname]
      exact List.cons_ne_nil _ _
    · simpa only [Option.mem_def.1 hc] using List.head?_dropWhile_not isNameChar (d :: rest)
  | false =>
    have hbrace : d = '\x7b' ∧ '\x7d' ∈ d :: rest := by
      by_contra hbrace
      exact hplain ⟨hdollar, hname, fun hd hclose => hbrace ⟨hd, hclose⟩⟩
    obtain ⟨rfl, hclose⟩ := hbrace
    obtain ⟨body, rest, rfl, hbody⟩ :=
      List.eq_append_cons_of_mem (List.mem_of_ne_of_mem (by decide) hclose)
    exact ⟨.braced body, rest, by simp [Piece.text], hbody⟩

/-- **Every text is cut into pieces that fit.** -/
theorem exists_fitted (cs : Text) : ∃ ps, Fitted ps ∧ pieceText ps = cs := by
  induction hn : cs.length using Nat.strongRecOn generalizing cs with
  | _ n ih =>
    by_cases hne : cs = []
    · exact ⟨[], trivial, hne.symm⟩
    · obtain ⟨p, rest, rfl, hp⟩ := exists_piece hne
      have hpos := p.length_text_pos
      obtain ⟨ps, hps, rfl⟩ := ih rest.length (by
        rw [← hn, List.length_append]
        omega) rest rfl
      exact ⟨p :: ps, ⟨hp, hps⟩, rfl⟩

/-! ## Expansion -/

section Expansion

variable {env : Environment} {n : Nat}

/-- A character other than a dollar stays. -/
theorem expandWithin?_cons {c : Char} (hc : c ≠ '$') (cs : Text) :
    expandWithin? env (n + 1) (c :: cs) = (expandWithin? env (n + 1) cs).map (c :: ·) := by
  have hkeep : (c != '$') = true := by simp [hc]
  simp only [expandWithin?, List.takeWhile_cons, List.dropWhile_cons, hkeep, if_true]
  split
  · split
    · cases bracedValue? env _ with
      | none => rfl
      | some v => cases expandWithin? env n _ <;> rfl
    · cases expandWithin? env n _ <;> rfl
  · cases expandWithin? env n _ <;> rfl
  · split_ifs
    · cases expandWithin? env n _ <;> rfl
    · cases env.get? _ with
      | none => rfl
      | some v => cases expandWithin? env n _ <;> rfl
  · rfl

/-- A dollar that begins no reference stays. -/
theorem expandWithin?_lone {rest : Text} (h : (Piece.plain '$').Before rest) :
    expandWithin? env (n + 1) ('$' :: rest) = (expandWithin? env n rest).map ('$' :: ·) := by
  cases rest with
  | nil => simp [expandWithin?]
  | cons d rest =>
    obtain ⟨hdollar, hname, hopen⟩ := h rfl d rfl
    by_cases hbrace : d = '\x7b'
    · subst hbrace
      have hclose : rest.dropWhile (· != '\x7d') = [] := by
        refine List.dropWhile_eq_nil_iff.2 fun c hc => ?_
        have hne : c ≠ '\x7d' := fun heq => hopen rfl (heq ▸ List.mem_cons_of_mem _ hc)
        simp [hne]
      have hlater : expandWithin? env n ('\x7b' :: rest) = (expandWithin? env n rest).map ('\x7b' :: ·) := by
        cases n with
        | zero => rfl
        | succ n => exact expandWithin?_cons (by decide) rest
      rw [hlater, Option.map_map]
      simp [expandWithin?, hclose, Function.comp_def]
    · simp [expandWithin?, hbrace, hdollar, hname]

theorem expandWithin?_named {name rest : Text} (h : (Piece.named name).Before rest) :
    expandWithin? env (n + 1) ((Piece.named name).text ++ rest) =
      (env.get? name).bind fun v => (expandWithin? env n rest).map (v ++ ·) := by
  obtain ⟨hne, hname, hrest⟩ := h
  obtain ⟨c, cs, rfl⟩ := List.exists_cons_of_ne_nil hne
  have hc := hname c List.mem_cons_self
  have htake := takeWhile_append_stop hname hrest
  have hdrop := dropWhile_append_stop hname hrest
  have hdollar : c ≠ '$' := by
    rintro rfl
    exact absurd hc (by decide +kernel)
  have hbrace : c ≠ '\x7b' := by
    rintro rfl
    exact absurd hc (by decide +kernel)
  rw [List.cons_append] at htake hdrop
  cases hvalue : env.get? (c :: cs) <;> cases hlater : expandWithin? env n rest <;>
    simp [Piece.text, expandWithin?, hdollar, hbrace, htake, hdrop, hvalue, hlater]

theorem expandWithin?_braced {body rest : Text} (h : (Piece.braced body).Before rest) :
    expandWithin? env (n + 1) ((Piece.braced body).text ++ rest) =
      (bracedValue? env body).bind fun v => (expandWithin? env n rest).map (v ++ ·) := by
  have hbody : ∀ c ∈ body, (c != '\x7d') = true := by
    intro c hc
    have hne : c ≠ '\x7d' := fun heq => h (heq ▸ hc)
    simp [hne]
  have htake : (body ++ '\x7d' :: rest).takeWhile (· != '\x7d') = body :=
    takeWhile_append_stop hbody (by simp)
  have hdrop : (body ++ '\x7d' :: rest).dropWhile (· != '\x7d') = '\x7d' :: rest :=
    dropWhile_append_stop hbody (by simp)
  have htext : (Piece.braced body).text ++ rest = '$' :: '\x7b' :: (body ++ '\x7d' :: rest) := by
    simp [Piece.text]
  rw [htext]
  cases hvalue : bracedValue? env body <;> cases hlater : expandWithin? env n rest <;>
    simp [expandWithin?, htake, hdrop, hvalue, hlater]

theorem expandWithin?_pieces {ps : List Piece} (h : Fitted ps) (hn : (pieceText ps).length < n) :
    expandWithin? env n (pieceText ps) = pieceValue? env ps := by
  induction ps generalizing n with
  | nil =>
    cases n <;> simp [expandWithin?, pieceText, pieceValue?]
  | cons p ps ih =>
    obtain ⟨hp, hps⟩ := h
    obtain ⟨n, rfl⟩ : ∃ m, n = m + 1 := Nat.exists_eq_add_one_of_ne_zero (by omega)
    rw [pieceText_cons, List.length_append] at hn
    rw [pieceText_cons, pieceValue?_cons]
    have hpos := p.length_text_pos
    cases p with
    | plain c =>
      by_cases hc : c = '$'
      · subst hc
        rw [Piece.text, List.singleton_append, expandWithin?_lone hp, ih hps (by omega)]
        rfl
      · rw [Piece.text, List.singleton_append, expandWithin?_cons hc, ih hps (by omega)]
        rfl
    | dollars =>
      have hdollars : expandWithin? env (n + 1) ('$' :: '$' :: pieceText ps) =
          (expandWithin? env n (pieceText ps)).map ('$' :: ·) := by
        simp [expandWithin?]
      rw [Piece.text, List.cons_append, List.singleton_append, hdollars, ih hps (by omega)]
      rfl
    | named name =>
      rw [expandWithin?_named hp, ih hps (by omega)]
      rfl
    | braced body =>
      rw [expandWithin?_braced hp, ih hps (by omega)]
      rfl

/-- **A path stands for the values of its pieces.** -/
theorem expandVariables?_pieces {ps : List Piece} (h : Fitted ps) :
    expandVariables? env (pieceText ps) = pieceValue? env ps :=
  expandWithin?_pieces h (Nat.lt_succ_self _)

end Expansion

/-! ## The settings file -/

section ConfigPath

variable {env : Environment} {path : Text} {ps : List Piece}

theorem configPath_eq (hpath : env.get? configVariable = some path) (hne : path ≠ []) :
    configPath env = (expandPath? env ((env.get? homeVariable).getD []) path).getD path := by
  rw [configPath, hpath]
  split
  · contradiction
  · rename_i heq
    exact absurd (Option.some.inj heq) hne
  · rename_i heq
    rw [Option.some.inj heq]

/-- **One reference to a variable that is not set leaves the whole path as it is written.** -/
theorem configPath_of_unset (h : Fitted ps) (hpath : env.get? configVariable = some (pieceText ps))
    {p : Piece} (hp : p ∈ ps) (hunset : p.value? env = none) : configPath env = pieceText ps := by
  have hne : pieceText ps ≠ [] := by
    intro hnil
    have hpos := p.length_text_pos
    rw [List.flatMap_eq_nil_iff.1 hnil p hp] at hpos
    exact Nat.lt_irrefl 0 hpos
  rw [configPath_eq hpath hne, expandPath?, expandVariables?_pieces h, pieceValue?_eq_none hp hunset]
  rfl

/-- A path that does not begin with a tilde is its value. -/
theorem configPath_of_value (h : Fitted ps) (hpath : env.get? configVariable = some (pieceText ps))
    (hne : pieceText ps ≠ []) (htilde : (pieceText ps).head? ≠ some '~') {value : Text}
    (hvalue : pieceValue? env ps = some value) : configPath env = value := by
  rw [configPath_eq hpath hne, expandPath?, expandVariables?_pieces h, hvalue, Option.map_some,
    if_neg htilde]
  rfl

/-- A path below a tilde is below the home directory. -/
theorem configPath_of_home (h : Fitted ps)
    (hpath : env.get? configVariable = some ('~' :: '/' :: pieceText ps)) {home value : Text}
    (hhome : env.get? homeVariable = some home) (hvalue : pieceValue? env ps = some value) :
    configPath env = home ++ '/' :: value := by
  have hfit : Fitted (.plain '~' :: .plain '/' :: ps) :=
    ⟨fun heq => absurd heq (by decide), fun heq => absurd heq (by decide), h⟩
  have hexpand : expandVariables? env ('~' :: '/' :: pieceText ps) = some ('~' :: '/' :: value) := by
    rw [show '~' :: '/' :: pieceText ps = pieceText (.plain '~' :: .plain '/' :: ps) from rfl,
      expandVariables?_pieces hfit, pieceValue?_cons, pieceValue?_cons, hvalue]
    rfl
  rw [configPath_eq hpath (List.cons_ne_nil _ _), expandPath?, hexpand, hhome]
  rfl

end ConfigPath

end LpFormat
