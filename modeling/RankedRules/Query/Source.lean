/-
Where a query takes its rules and stored values from.

The models that a configuration names come before those that are named beside it, and overrides
are stored after the values of the configuration, so they win. Models of a configuration are seen
from its directory.

* `Source` — the type;
* `Source.resolve` — the configuration and the model files;
* `Source.rules`, `Source.context` — the rules, and a context over them with all stored values;
* `Outcome`, `Context.query` — what a query gives.
-/
import RankedRules.Config
import RankedRules.Context.Take
import RankedRules.Loading.Model
import RankedRules.Query.Override

namespace RankedRules

/-- A configuration file or none, further model files, and overrides. -/
structure Source where
  config : Option String := none
  models : List String := []
  overrides : List Override := []

namespace Source

/-- The configuration and the model files in the order of loading. -/
def resolve (files : Files) (source : Source) : Except Failure (Config × List String) :=
  match source.config with
  | none => .ok ({}, source.models)
  | some name =>
    if files.has name then do
      let config ← withContext ("load " ++ name) (Config.load files name)
      let directory := (PathName.parent? name).getD "."
      .ok (config, config.modelNames directory ++ source.models)
    else
      .error (.because ("config " ++ name ++ " not found"))

/-- The rules of all models. -/
def rules (files : Files) (source : Source) : Except Failure (List Rule) := do
  let (config, names) ← source.resolve files
  Model.loadAll files config.failOnParseError names

/-- A context with further values stored. -/
def store (c : Context) : List Override → Except Failure Context
  | [] => .ok c
  | ⟨key, value⟩ :: rest =>
    match c.takePath value key with
    | .ok c => store c rest
    | .error error => .error ⟨["store override '" ++ key ++ "'"], .evaluation error⟩

/-- A context over the rules with all stored values. -/
def context (files : Files) (source : Source) : Except Failure Context := do
  let (config, names) ← source.resolve files
  let rules ← Model.loadAll files config.failOnParseError names
  let c : Context := { model := some ⟨rules⟩ }
  store (c.takeAll config.storedValues) source.overrides

end Source

/-- What a query gives: a value, the values of all rules that apply, nothing, or a cycle. -/
inductive Outcome
  | value (value : Value)
  | values (values : List Value)
  | nothing
  | cycle (chain : List String)

/-- The outcome of a failed evaluation: a cycle is an outcome, all else a failure. -/
def Outcome.ofError (key : String) : EvalError → Except Failure Outcome
  | .cyclicReference chain => .ok (.cycle chain)
  | error => .error ⟨["query '" ++ key ++ "'"], .evaluation error⟩

/-- The value at a key path, or with `all` the values of all rules for a key that apply. -/
def Context.query (c : Context) (key : String) (all : Bool) : Except Failure Outcome :=
  if all then
    match c.allValues key with
    | .ok (some (value :: values)) => .ok (.values (value :: values))
    | .ok _ => .ok .nothing
    | .error error => Outcome.ofError key error
  else
    match c.path key with
    | .ok found =>
      match found.bind Value.present with
      | some value => .ok (.value value)
      | none => .ok .nothing
    | .error error => Outcome.ofError key error

end RankedRules
