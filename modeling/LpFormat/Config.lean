import LpFormat.Config.Path
import LpFormat.Config.Toml.Document
import LpFormat.Parse

/-!
# Settings

Settings are kept in a file with a table `parser` that holds the options of the parser.

* `Config`, `Config.ofText?`, `Config.render`: settings, read from and written to a text;
* `ConfigFile`: what stands at the place of the file;
* `ConfigError`, `Config.load`: settings from a file; there are none if there is no file.
-/

namespace LpFormat

/-- Settings. -/
structure Config where
  parser : Options := {}
deriving DecidableEq, Repr, Inhabited

/-- What stands at the place of the settings file. -/
inductive ConfigFile where
  | missing
  | directory
  | content (bytes : ByteArray)

/-- Why settings cannot be loaded. -/
inductive ConfigError where
  /-- There is something that is not a text. -/
  | unreadable (path : Text)
  /-- The text is not TOML, or an option has a value that does not fit. -/
  | malformed (path : Text)
deriving DecidableEq, Repr

/-- The wording of an error. -/
def ConfigError.message : ConfigError → String
  | unreadable path => "Failed to read config file at " ++ String.ofList path
  | malformed path => "Failed to parse config file at " ++ String.ofList path

/-- A value as a setting. -/
def Toml.Value.setting : Toml.Value → Setting
  | .boolean b => .bool b
  | .integer i => .int i
  | _ => .other

/-- Options from a value: from a table by name, from an array by position. A date counts as a table
without options. The numbers of a table must be in range, also where they set no option; items of an
array that set no option are not looked at. -/
def Toml.Value.options? : Toml.Value → Option Options
  | .table _ fields =>
    if Toml.inRangeFields fields then
      Options.ofSettings? (fields.map fun f => (String.ofList f.1, f.2.setting))
    else none
  | .array items => Options.ofList? (items.map Toml.Value.setting)
  | .tables elements => Options.ofList? (elements.map fun _ => .other)
  | .dateTime => some {}
  | _ => none

namespace Config

/-- The key of the options of the parser. -/
def parserKey : Text := "parser".toList

/-- Settings from a text. Without a table `parser` all options keep their defaults. All other
numbers must be in range. -/
def ofText? (text : Text) : Option Config := do
  let fields ← Toml.document? text
  guard (Toml.inRangeFields (fields.filter fun f => f.1 != parserKey))
  match Toml.lookup parserKey fields with
  | none => return {}
  | some value => return ⟨← value.options?⟩

/-- Settings as a text. -/
def render (c : Config) : String :=
  let flag := if c.parser.incremental then "true" else "false"
  let cap :=
    match c.parser.maxErrors with
    | some n => s!"max_errors = {n}\n"
    | none => ""
  let share := c.parser.maxDeadPercent
  "[parser]\n" ++ s!"incremental = {flag}\n" ++ cap ++ s!"max_dead_percent = {share}\n"

/-- Loads settings. -/
def load (path : Text) : ConfigFile → Except ConfigError (Option Config)
  | .missing => .ok none
  | .directory => .error (.unreadable path)
  | .content bytes =>
    match String.fromUTF8? bytes with
    | none => .error (.unreadable path)
    | some s =>
      match ofText? s.toList with
      | none => .error (.malformed path)
      | some c => .ok (some c)

/-- The file that saving settings leaves behind. -/
def save (c : Config) : ConfigFile := .content c.render.toUTF8

/-- Parses a text with the options of the settings. -/
def parse (c : Config) (text : Text) : Parse := LpFormat.parse text c.parser

end Config

end LpFormat
