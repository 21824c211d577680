/-
The command line.

There are three commands: to query a key, to list the candidates for a key, and to check model
files. Options and the key may come in any order, and two dashes alone end the options. An option
with a value takes it from behind an equals sign, from the same argument if it has one letter, or
else from the next argument, which may not look like an option.

* `Command` — the commands;
* `Command.Answer` — what the arguments ask for: a command, help or the version;
* `Command.parse?` — the answer to the arguments, if they are right;
* `Command.Output`, `Command.run` — what a command prints, and its exit code;
* `Command.runArguments` — the same from the arguments;
* `Command.names` — the files that a command reads.
-/
import RankedRules.Query.Source

namespace RankedRules

/-- A command with its arguments. -/
inductive Command
  | query (key : String) (source : Source) (overrides : List String) (all : Bool)
  | candidates (key : String) (source : Source)
  | check (names : List String)

namespace Command

/-! ## Reading the arguments -/

/-- The three commands by name. -/
inductive Kind
  | query
  | candidates
  | check
  deriving DecidableEq

/-- The command of a name. -/
def Kind.ofName? : String → Option Kind
  | "query" => some .query
  | "candidates" => some .candidates
  | "check" => some .check
  | _ => none

/-- What the arguments ask for. -/
inductive Answer
  | run (command : Command)
  | help
  | version

/-- What has been read of the arguments of a command. -/
structure Given where
  models : List String := []
  config : Option String := none
  overrides : List String := []
  all : Bool := false
  operands : List String := []

/-- The options that take a value. -/
inductive Setting
  | model
  | config
  | override

/-- The option of a long name, if the command has it. -/
def Setting.ofName? (kind : Kind) (name : String) : Option Setting :=
  match kind, name with
  | .check, _ => none
  | _, "model" => some .model
  | _, "config" => some .config
  | .query, "set" => some .override
  | _, _ => none

/-- The option of a letter, if the command has it. -/
def Setting.ofLetter? (kind : Kind) (letter : Char) : Option Setting :=
  match kind, letter with
  | .check, _ => none
  | _, 'm' => some .model
  | _, 'c' => some .config
  | _, _ => none

/-- What is given with one more option. Names of files are not empty, and there is one
configuration at most. -/
def Given.set? (given : Given) (setting : Setting) (value : String) : Option Given :=
  match setting with
  | .model =>
    if value.isEmpty then none else some { given with models := given.models ++ [value] }
  | .config =>
    if value.isEmpty || given.config.isSome then none
    else some { given with config := some value }
  | .override => some { given with overrides := given.overrides ++ [value] }

/-- What is given with one more operand: one key, or any number of names of files. -/
def Given.operand? (kind : Kind) (given : Given) (value : String) : Option Given :=
  if kind = .check then
    if value.isEmpty then none else some { given with operands := given.operands ++ [value] }
  else if given.operands.isEmpty then some { given with operands := [value] }
  else none

/-- What is given with operands behind two dashes. -/
def Given.operands? (kind : Kind) (given : Given) (values : List String) : Option Given :=
  values.foldlM (Given.operand? kind) given

/-- An argument, taken apart: a long option with its value if it has one, a letter with what
follows it, the end of the options, or an operand. -/
inductive Argument
  | long (name : String) (value : Option String)
  | short (letter : Char) (rest : List Char)
  | endOfOptions
  | operand (value : String)

/-- Takes an argument apart. -/
def Argument.ofString (text : String) : Argument :=
  match text.toList with
  | ['-', '-'] => .endOfOptions
  | '-' :: '-' :: cs =>
    let value :=
      match cs.dropWhile (· ≠ '=') with
      | [] => none
      | _ :: value => some (String.ofList value)
    .long (String.ofList (cs.takeWhile (· ≠ '='))) value
  | '-' :: letter :: rest => .short letter rest
  | _ => .operand text

/-- Whether an argument can be the value of the option in front of it. -/
def isValue (text : String) : Bool :=
  match Argument.ofString text with
  | .operand _ => true
  | _ => false

/-- The value that follows a letter in the same argument. -/
def attachedValue : List Char → String
  | '=' :: value => String.ofList value
  | value => String.ofList value

/-- What the arguments behind the name of a command give, or inside this nothing if they ask for
help. Nothing at all is returned if they are not right. -/
def given? (kind : Kind) : Given → List String → Option (Option Given)
  | given, [] => some (some given)
  | given, argument :: rest =>
    match Argument.ofString argument with
    | .endOfOptions => (given.operands? kind rest).map some
    | .operand value => do given? kind (← given.operand? kind value) rest
    | .long "help" none => some none
    | .long "all" none =>
      if kind = .query ∧ given.all = false then given? kind { given with all := true } rest
      else none
    | .long name (some value) => do
      let setting ← Setting.ofName? kind name
      given? kind (← given.set? setting value) rest
    | .long name none => do
      let setting ← Setting.ofName? kind name
      match rest with
      | [] => none
      | value :: rest =>
        if isValue value then given? kind (← given.set? setting value) rest else none
    | .short 'h' _ => some none
    | .short letter (c :: cs) => do
      let setting ← Setting.ofLetter? kind letter
      given? kind (← given.set? setting (attachedValue (c :: cs))) rest
    | .short letter [] => do
      let setting ← Setting.ofLetter? kind letter
      match rest with
      | [] => none
      | value :: rest =>
        if isValue value then given? kind (← given.set? setting value) rest else none

/-- The command that is given, if its operands are. -/
def ofGiven? (kind : Kind) (given : Given) : Option Command :=
  let source : Source := { config := given.config, models := given.models }
  match kind, given.operands with
  | _, [] => none
  | .query, key :: _ => some (.query key source given.overrides given.all)
  | .candidates, key :: _ => some (.candidates key source)
  | .check, names => some (.check names)

/-- The answer to a request for help with a command. -/
def help? : List String → Option Answer
  | [] => some .help
  | ["help"] => some .help
  | [name] => (Kind.ofName? name).map fun _ => .help
  | _ => none

/-- The answer to the arguments, if they are right. -/
def parse? : List String → Option Answer
  | [] => none
  | "help" :: rest => help? rest
  | name :: rest =>
    match Kind.ofName? name, Argument.ofString name with
    | some kind, _ => do
      match ← given? kind {} rest with
      | some given => (ofGiven? kind given).map .run
      | none => some .help
    | none, .long "help" none => some .help
    | none, .short 'h' _ => some .help
    | none, .long "version" none => some .version
    | none, .short 'V' _ => some .version
    | none, _ => none

/-! ## Running a command -/

/-- An exit code and what is printed to the two streams. -/
structure Output where
  code : Nat
  out : String := ""
  err : String := ""

/-- Lines, each with its line end. -/
def inLines (lines : List String) : String :=
  String.join (lines.map (· ++ "\n"))

/-- The output of a failure. -/
def Output.ofFailure (failure : Failure) : Output :=
  { code := 1, err := inLines [failure.report] }

/-- The output of a query for a key. -/
def Output.ofOutcome (key : String) : Outcome → Output
  | .value value => { code := 0, out := inLines [value.json] }
  | .values values => { code := 0, out := inLines [(Value.array values).json] }
  | .nothing => { code := 2, err := inLines ["no value for '" ++ key ++ "'"] }
  | .cycle chain => { code := 3, err := inLines [EvalError.chainText chain] }

/-- The output of a list of candidates for a key. -/
def Output.ofCandidates (key : String) : List String → Output
  | [] => { code := 2, err := inLines ["no candidate rules for '" ++ key ++ "'"] }
  | lines => { code := 0, out := inLines lines }

/-- The result of a command, if it does not fail. -/
def result (files : Files) : Command → Except Failure Output
  | .query key source texts all => do
    let overrides ← Override.parseAll texts
    let c ← { source with overrides }.context files
    let outcome ← c.query key all
    .ok (.ofOutcome key outcome)
  | .candidates key source => do
    let rules ← source.rules files
    .ok (.ofCandidates key (Model.candidateLines ⟨rules⟩ key))
  | .check names => do
    let counts ← Model.check files names
    .ok
      { code := 0
        out := inLines (counts.map fun (name, n) => name ++ ": " ++ toString n ++ " rules") }

/-- The output of a command. -/
def run (files : Files) (command : Command) : Output :=
  match command.result files with
  | .ok output => output
  | .error failure => .ofFailure failure

/-- How the program is called. -/
def usage : String :=
  inLines
    ["Priority-ranked rule inference",
      "",
      "Usage: rules query [--model PATH]... [--config PATH] [--set KEY=VALUE]... [--all] KEY",
      "       rules candidates [--model PATH]... [--config PATH] KEY",
      "       rules check PATH...",
      "       rules help"]

/-- The name of the program and its version. -/
def versionText : String := inLines ["rules 0.1.0"]

/-- The output of the program for its arguments. -/
def runArguments (files : Files) (arguments : List String) : Output :=
  match parse? arguments with
  | some (.run command) => command.run files
  | some .help => { code := 0, out := usage }
  | some .version => { code := 0, out := versionText }
  | none => { code := 1, err := usage }

/-- The files that a source reads, as far as its configuration can be read. -/
def sourceNames (files : Files) (source : Source) : List String :=
  source.config.toList ++
    match source.resolve files with
    | .ok (_, names) => names
    | .error _ => []

/-- The files that the program reads for its arguments, as far as they are known from the files
that have been read. -/
def names (files : Files) (arguments : List String) : List String :=
  match parse? arguments with
  | some (.run (.query _ source _ _)) => sourceNames files source
  | some (.run (.candidates _ source)) => sourceNames files source
  | some (.run (.check names)) => names
  | _ => []

end Command

end RankedRules
