/-
Configurations.

A configuration is a TOML document. It names the model files to load, says whether a rule that
cannot be read is a failure, and gives values to store before any query. What it does not name
has a default, and what it names besides is ignored, unless a number in it cannot be read.

* `Config` — the type;
* `Config.ofTable?` — the configuration of a table, if its values have the right kinds;
* `Config.validate` — no model may have an empty name, and no stored value a blank one;
* `Config.load` — the configuration of a file; a missing file is the default;
* `Config.document` — the text of a configuration;
* `Config.storedValues`, `Config.modelNames` — the rule values, and the model files seen from a
  directory.
-/
import RankedRules.Files.Basic
import RankedRules.Text.Blank
import RankedRules.Toml.Dated
import RankedRules.Toml.Document
import RankedRules.Toml.Writer

namespace RankedRules

/-- Model files, how to treat rules that cannot be read, and values to store. -/
structure Config where
  models : List String := []
  failOnParseError : Bool := false
  stored : Entries Toml := []

namespace Config

/-- The texts of a list of strings. -/
def texts? : List Toml → Option (List String)
  | [] => some []
  | .string text :: rest => (texts? rest).map (text :: ·)
  | _ :: _ => none

/-- The model files of a table. -/
def models? (members : List (String × Toml)) : Option (List String) :=
  match Entries.find? "models" members with
  | none => some []
  | some (.array items) => texts? items
  | some _ => none

/-- Whether a rule that cannot be read is a failure, according to a table. -/
def failOnParseError? (members : List (String × Toml)) : Option Bool :=
  match Entries.find? "fail_on_parse_error" members with
  | none => some false
  | some (.boolean holds) => some holds
  | some _ => none

/-- The values to store of a table. A date counts as a table with its text, while in the values
themselves a table may stand for a date. Their integers must have 64 bits. -/
def stored? (members : List (String × Toml)) : Option (Entries Toml) :=
  match Entries.find? "stored" members with
  | none => some []
  | some (.table stored) =>
    (Toml.datedMembers? stored).filter (Toml.membersWithin Number.isSigned64)
  | some (.datetime text) => some [(Toml.datetimeName, .string text)]
  | some _ => none

/-- The configuration of a table, if its values have the right kinds and all numbers beside the
values to store can be read. -/
def ofTable? (members : List (String × Toml)) : Option Config := do
  guard (Toml.membersWithin Toml.isWide (Entries.erase "stored" members))
  let models ← models? members
  let failOnParseError ← failOnParseError? members
  let stored ← stored? members
  some { models, failOnParseError, stored }

/-- A configuration in which every model has a name and every stored value has one that is not
blank. -/
def validate (config : Config) : Except Failure Config :=
  match config.models.findIdx? String.isEmpty with
  | some i => .error (.because ("models[" ++ toString i ++ "] must be a non-empty path"))
  | none =>
    match (config.stored.map Prod.fst).find? Text.isAllBlank with
    | some key => .error (.because ("stored key '" ++ key ++ "' must not be blank"))
    | none => .ok config

/-- The configuration of a file; a missing file is the default. -/
def load (files : Files) (name : String) : Except Failure Config :=
  if files.has name then
    match files.read name with
    | .error fault => .error ⟨["read " ++ name], .file fault⟩
    | .ok contents =>
      match (Toml.parse? contents.toList).bind ofTable? with
      | none => .error ⟨["parse " ++ name], .toml⟩
      | some config => config.validate
  else
    .ok {}

/-- A configuration as a table. -/
def toTable (config : Config) : List (String × Toml) :=
  [("models", .array (config.models.map .string)),
    ("fail_on_parse_error", .boolean config.failOnParseError),
    ("stored", .table config.stored)]

/-- The text of a configuration. -/
def document (config : Config) : Except Failure String := do
  let config ← config.validate
  .ok (String.ofList (Toml.documentText config.toTable) ++ "\n")

/-- The values to store. -/
def storedValues (config : Config) : List (String × Value) :=
  Toml.memberValues config.stored

/-- The model files seen from a directory. -/
def modelNames (config : Config) (directory : String) : List String :=
  config.models.map (PathName.join directory)

/-- Equality of configurations. -/
def same (a b : Config) : Bool :=
  a.models == b.models && a.failOnParseError == b.failOnParseError &&
    Toml.sameMembers a.stored b.stored

end Config

end RankedRules
