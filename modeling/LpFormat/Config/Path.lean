import LpFormat.Text.Alphanumeric
import LpFormat.Text

/-!
# The place of the settings file

The file is named by a variable of the environment, in which a leading tilde and references to
variables are expanded, or else it has a fixed place below the home directory.

* `Environment`, `Environment.get?`;
* `expandVariables?`: references replaced by values, absent if one of them is not set;
* `expandTilde`, `expandPath?`;
* `configPath`: where the settings are.
-/

namespace LpFormat

/-- The variables of an environment; the first of a name counts. -/
abbrev Environment := List (Text × Text)

/-- The value of a variable. -/
def Environment.get? (env : Environment) (name : Text) : Option Text :=
  (List.find? (fun v => v.1 == name) env).map (·.2)

/-- The variable that names the home directory. -/
def homeVariable : Text := "HOME".toList

/-- The variable that names the settings file. -/
def configVariable : Text := "LP_SYNTAX_CONFIG".toList

/-- The place of the settings file below the home directory. -/
def configPlace : Text := "/.config/lp-syntax/config.toml".toList

/-- A character of the name of a variable that is not in braces. -/
def isNameChar (c : Char) : Bool := isAlphanumeric c || c == '_'

/-- What comes before the first mark `:-`, and what comes after it if there is one. -/
def splitDefault : Text → Text × Option Text
  | [] => ([], none)
  | ':' :: '-' :: rest => ([], some rest)
  | c :: cs =>
    let (name, value) := splitDefault cs
    (c :: name, value)

/-- The value of a reference in braces: that of the name before the mark, or else what comes after
the mark. Without a name before it the mark is part of the name. -/
def bracedValue? (env : Environment) (body : Text) : Option Text :=
  match splitDefault body with
  | ([], _) => env.get? body
  | (name, standIn) => (env.get? name).or standIn

/-- Replaces references to variables, at most `n` of them: a dollar with a name, or with braces
around a name, becomes the value, two dollars become one, and any other dollar stays. -/
def expandWithin? (env : Environment) : Nat → Text → Option Text
  | 0, cs => some cs
  | n + 1, cs =>
    let plain := cs.takeWhile (· != '$')
    match cs.dropWhile (· != '$') with
    | '$' :: '\x7b' :: rest =>
      let body := rest.takeWhile (· != '\x7d')
      match rest.dropWhile (· != '\x7d') with
      | _ :: rest => do
        let value ← bracedValue? env body
        return plain ++ value ++ (← expandWithin? env n rest)
      | [] => (expandWithin? env n rest).map (plain ++ '$' :: '\x7b' :: ·)
    | '$' :: '$' :: rest => (expandWithin? env n rest).map (plain ++ '$' :: ·)
    | '$' :: rest =>
      let name := rest.takeWhile isNameChar
      if name = [] then (expandWithin? env n rest).map (plain ++ '$' :: ·)
      else do
        let value ← env.get? name
        return plain ++ value ++ (← expandWithin? env n (rest.dropWhile isNameChar))
    | _ => some plain

/-- Replaces references to variables. -/
def expandVariables? (env : Environment) (cs : Text) : Option Text :=
  expandWithin? env (cs.length + 1) cs

/-- Replaces a leading tilde that stands alone or before a slash by the home directory. -/
def expandTilde (home : Text) : Text → Text
  | ['~'] => home
  | '~' :: '/' :: rest => home ++ '/' :: rest
  | cs => cs

/-- Replaces references and a leading tilde. A tilde that comes from a value stays. -/
def expandPath? (env : Environment) (home path : Text) : Option Text :=
  (expandVariables? env path).map fun expanded =>
    if path.head? = some '~' then expandTilde home expanded else expanded

/-- Where the settings are. A reference to a variable that is not set leaves the whole path as it is
written. -/
def configPath (env : Environment) : Text :=
  let home := (env.get? homeVariable).getD []
  match env.get? configVariable with
  | none | some [] => home ++ configPlace
  | some path => (expandPath? env home path).getD path

end LpFormat
