/-
What a query answers for the one key path that a source supplies.

There are three ways to supply a value, and they take the key path in two ways. An override is
written at the path, so the query finds it behind the same segments. A rule is a candidate for just
the key that it assigns, and a value of a configuration is stored under its key as it stands; but a
query looks up the first segment of the path. So these answer a path of one segment only.

* `Context.query_of_only` — what a context answers that has a value under just one key;
* `Context.query_constantRule`, `Context.query_taken` — it has it by a rule, or stored;
* `Source.answer_supplied` — what the three sources answer.
-/
import RankedRules.Proofs.Context.Writes
import RankedRules.Proofs.Inference.Materialise
import RankedRules.Proofs.Loading.Kept
import RankedRules.Proofs.Value.KeyPath
import RankedRules.Query.Source

namespace RankedRules

namespace Context

variable {c d : Context} {key path first : String} {rest : List String} {value : Value}

/-- A key that is not stored and has no rules has no value. -/
theorem value_of_no_rules (hstored : c.storedValue key = none) (hrules : c.rulesFor key = []) :
    c.value key = .ok none := by
  rw [Context.value, reader_eq, hstored]
  split
  · rfl
  · rename_i hkey
    show c.inferThrough (c.reader ([] ++ [key])) [] key = .ok none
    rw [inferThrough_of_notMem (by simpa using hkey) List.not_mem_nil, hrules]
    rfl

/-- A query answers what is found at a path. -/
theorem query_of_path {found : Option Value} (hpath : c.path path = .ok found) :
    c.query path false = .ok (found.elim .nothing .value) := by
  rw [Context.query, if_neg Bool.false_ne_true, hpath]
  cases found with
  | none => rfl
  | some value =>
    simp only [Option.bind_some, Value.present_of_not_null (Lookup.path_not_null hpath)]
    rfl

/-! ## One rule, and one stored value -/

/-- The only rule of a model is the only one for its keys. -/
theorem rulesFor_single (rule : Rule) (stored : Entries Value) (key : String) :
    rulesFor { model := some ⟨[rule]⟩, stored } key =
      if rule.isCandidate (some key) then [rule] else [] := by
  rw [rulesFor, Option.bind_some, Model.candidates?]
  by_cases h : rule.isCandidate (some key) = true
  · rw [if_pos h, List.filter_cons_of_pos h]
    rfl
  · rw [if_neg h, List.filter_cons_of_neg h]
    rfl

/-- A context that has a value under just one key, stored or by a rule, answers a query of that key
with the value. It does not answer a path of several segments: another key is looked up for it. -/
theorem query_of_only (hchars : ∀ c ∈ key.toList, Qualifier.isKeyChar c = true)
    (hpieces : [] ∉ Text.splitOn '.' key.toList) (hvalue : value.isNull = false)
    (hkey : key ≠ "" → c.value key = .ok (some value))
    (hother : ∀ other, other ≠ key → c.value other = .ok none) :
    c.query key false = .ok (if '.' ∈ key.toList then .nothing else .value value) := by
  by_cases hpoint : '.' ∈ key.toList
  · obtain ⟨first, second, rest, hsegments, hfirst⟩ :=
      KeyPath.segments?_of_point hchars hpieces hpoint
    rw [if_pos hpoint]
    exact query_of_path (path_of_first hsegments (hother first hfirst))
  · have hsegments := KeyPath.segments?_of_no_point hchars hpieces hpoint
    have hpath : c.path key = .ok (some value) := by
      rw [path_of_first hsegments (hkey (KeyPath.ne_empty_of_mem hsegments List.mem_cons_self))]
      exact congrArg Except.ok (Value.present_of_not_null hvalue)
    rw [if_neg hpoint]
    exact query_of_path hpath

/-- The rule that always assigns a value to a key. -/
def constantRule (key : String) (value : Value) (priority : Int) : Rule :=
  ⟨some (.constant true), some (.assign key value), priority⟩

/-- The rule gives its value, and null is nothing. -/
theorem present_of_constantRule (value : Value) (priority : Int) (hkey : key ≠ "") :
    Context.value { model := some ⟨[constantRule key value priority]⟩ } key =
      .ok value.present := by
  have hcandidate : (constantRule key value priority).isCandidate (some key) = true := by
    simp [Rule.isCandidate, constantRule, Rule.targets, Action.targets]
  rw [Context.value, reader_eq, if_neg (by simpa using hkey)]
  show inferThrough _ _ [] key = .ok value.present
  rw [inferThrough_of_notMem hkey List.not_mem_nil, rulesFor_single, if_pos hcandidate]
  rfl

theorem value_of_constantRule {priority : Int} (hvalue : value.isNull = false) (hkey : key ≠ "") :
    Context.value { model := some ⟨[constantRule key value priority]⟩ } key = .ok (some value) := by
  rw [present_of_constantRule value priority hkey, Value.present_of_not_null hvalue]

theorem value_beside_constantRule {other : String} {priority : Int} (hother : other ≠ key) :
    Context.value { model := some ⟨[constantRule key value priority]⟩ } other = .ok none := by
  by_cases hempty : other = ""
  · rw [Context.value, reader_eq, if_pos (by simpa using hempty)]
  · refine value_of_no_rules rfl ?_
    have hcandidate : ¬(constantRule key value priority).isCandidate (some other) = true := by
      simpa [Rule.isCandidate, constantRule, Rule.targets, Action.targets, hempty] using
        Ne.symm hother
    rw [rulesFor_single, if_neg hcandidate]

/-- A context over one rule answers a query of the key of the rule. -/
theorem query_constantRule (hchars : ∀ c ∈ key.toList, Qualifier.isKeyChar c = true)
    (hpieces : [] ∉ Text.splitOn '.' key.toList) (hvalue : value.isNull = false) (priority : Int) :
    Context.query { model := some ⟨[constantRule key value priority]⟩ } key false =
      .ok (if '.' ∈ key.toList then .nothing else .value value) :=
  query_of_only hchars hpieces hvalue (value_of_constantRule hvalue) fun _ =>
    value_beside_constantRule

theorem value_of_taken (hvalue : value.isNull = false) (hkey : key ≠ "") :
    Context.value (take { model := some ⟨[]⟩ } value key) key = .ok (some value) := by
  refine value_of_stored hkey ?_
  rw [storedValue_take, if_pos ⟨rfl, hkey⟩, Value.present_of_not_null hvalue]

theorem value_beside_taken {other : String} (hother : other ≠ key) :
    Context.value (take { model := some ⟨[]⟩ } value key) other = .ok none := by
  refine value_of_no_rules ?_ ?_
  · rw [storedValue_take, if_neg fun h => hother h.1]
    rfl
  · rw [rulesFor, model_take]
    rfl

/-- A context without rules answers a query of a stored key. -/
theorem query_taken (hchars : ∀ c ∈ key.toList, Qualifier.isKeyChar c = true)
    (hpieces : [] ∉ Text.splitOn '.' key.toList) (hvalue : value.isNull = false) :
    Context.query (take { model := some ⟨[]⟩ } value key) key false =
      .ok (if '.' ∈ key.toList then .nothing else .value value) :=
  query_of_only hchars hpieces hvalue (value_of_taken hvalue) fun _ => value_beside_taken

end Context

/-! ## Sources -/

namespace Source

/-- What a source answers to a query. -/
def answer (files : Files) (source : Source) (key : String) (all : Bool) :
    Except Failure Outcome := do
  let c ← source.context files
  c.query key all

section Answers

variable {files : Files} {source : Source} {config : Config} {names : List String}
  {rules : List Rule} {key : String} {value : Value}

/-- The context of a source holds its rules, the values of its configuration and its overrides. -/
theorem context_eq (hresolve : source.resolve files = .ok (config, names))
    (hrules : source.rules files = .ok rules) : source.context files =
      store (Context.takeAll { model := some ⟨rules⟩ } config.storedValues) source.overrides := by
  rw [Source.rules, hresolve] at hrules
  change Model.loadAll files config.failOnParseError names = .ok rules at hrules
  rw [Source.context, hresolve]
  show (Model.loadAll files config.failOnParseError names >>= fun rules =>
    store (Context.takeAll { model := some ⟨rules⟩ } config.storedValues) source.overrides) = _
  rw [hrules]
  rfl

/-- A configuration without models is all that a source with no other part has. -/
theorem resolve_config {name : String} (hname : files.has name = true)
    (hconfig : Config.load files name = .ok config) (hmodels : config.models = []) :
    resolve files { config := some name } = .ok (config, []) := by
  rw [resolve]
  show (if files.has name = true then _ else _) = _
  rw [if_pos hname, hconfig]
  show Except.ok (config, config.models.map _ ++ []) = _
  rw [hmodels]
  rfl

theorem answer_override (files : Files) (hvalue : value.isNull = false)
    (hkey : (KeyPath.segments? key).isSome = true) :
    answer files { overrides := [⟨key, value⟩] } key false = .ok (.value value) := by
  have hresolve : resolve files { overrides := [⟨key, value⟩] } = .ok ({}, []) := rfl
  obtain ⟨d, htaken, hpath⟩ := Context.path_takePath { model := some ⟨[]⟩ } hvalue hkey
  have hcontext : context files { overrides := [⟨key, value⟩] } = .ok d := by
    rw [context_eq hresolve rfl]
    show store { model := some ⟨[]⟩ } [⟨key, value⟩] = .ok d
    rw [store, htaken]
    rfl
  rw [answer, hcontext]
  exact Context.query_of_path hpath

theorem answer_rule {priority : Int} (hchars : ∀ c ∈ key.toList, Qualifier.isKeyChar c = true)
    (hpieces : [] ∉ Text.splitOn '.' key.toList) (hvalue : value.isNull = false)
    (hconfig : source.config = none) (hoverrides : source.overrides = [])
    (hrules : source.rules files = .ok [Context.constantRule key value priority]) :
    answer files source key false =
      .ok (if '.' ∈ key.toList then .nothing else .value value) := by
  have hresolve : source.resolve files = .ok ({}, source.models) := by rw [resolve, hconfig]
  rw [answer, context_eq hresolve hrules, hoverrides]
  exact Context.query_constantRule hchars hpieces hvalue priority

theorem answer_config {name : String} (hchars : ∀ c ∈ key.toList, Qualifier.isKeyChar c = true)
    (hpieces : [] ∉ Text.splitOn '.' key.toList) (hvalue : value.isNull = false)
    (hname : files.has name = true) (hconfig : Config.load files name = .ok config)
    (hmodels : config.models = []) (hstored : config.storedValues = [(key, value)]) :
    answer files { config := some name } key false =
      .ok (if '.' ∈ key.toList then .nothing else .value value) := by
  have hresolve := resolve_config hname hconfig hmodels
  have hrules : Source.rules files { config := some name } = .ok [] := by
    rw [Source.rules, hresolve]
    rfl
  rw [answer, context_eq hresolve hrules, hstored]
  exact Context.query_taken hchars hpieces hvalue

/-- A source that supplies one value under a path of key characters answers a query of the path with
the value, if it supplies it as an override, or if the path has one segment. A rule and a value of a
configuration do not answer a path of several segments. -/
theorem answer_supplied (hchars : ∀ c ∈ key.toList, Qualifier.isKeyChar c = true)
    (hpieces : [] ∉ Text.splitOn '.' key.toList) (hvalue : value.isNull = false) :
    answer files { overrides := [⟨key, value⟩] } key false = .ok (.value value) ∧
    (∀ priority : Int, Context.query
        { model := some ⟨[Context.constantRule key value priority]⟩ } key false =
      .ok (if '.' ∈ key.toList then .nothing else .value value)) ∧
    (∀ (source : Source) (priority : Int), source.config = none → source.overrides = [] →
      source.rules files = .ok [Context.constantRule key value priority] →
      answer files source key false =
        .ok (if '.' ∈ key.toList then .nothing else .value value)) ∧
    ∀ (name : String) (config : Config), files.has name = true →
      Config.load files name = .ok config → config.models = [] →
      config.storedValues = [(key, value)] →
      answer files { config := some name } key false =
        .ok (if '.' ∈ key.toList then .nothing else .value value) := by
  refine ⟨?_, Context.query_constantRule hchars hpieces hvalue, ?_, ?_⟩
  · refine answer_override files hvalue ?_
    rw [KeyPath.segments?_of_keyChars hchars hpieces]
    rfl
  · intro source priority hconfig hoverrides hrules
    exact answer_rule hchars hpieces hvalue hconfig hoverrides hrules
  · intro name config hname hconfig hmodels hstored
    exact answer_config hchars hpieces hvalue hname hconfig hmodels hstored

end Answers

/-! ## A path of two segments -/

namespace Dotted

/-- A rule file and a configuration that supply the same value. -/
def files : Files where
  read name := .ok (if name = "m.rules" then "*true* => a.b = 1" else "[stored]\n'a.b' = 1")

theorem rules_loaded : Source.rules files { models := ["m.rules"] } =
    .ok [Context.constantRule "a.b" (Value.ofInt 1) Priority.normal] := by
  have hload : Model.load files false "m.rules" =
      .ok [Context.constantRule "a.b" (Value.ofInt 1) Priority.normal] := by
    refine Model.load_ok_iff.2 ⟨"*true* => a.b = 1", rfl, ?_⟩
    rw [Model.loadText_of_not_xml rfl]
    rfl
  show Model.loadAll files false ["m.rules"] = _
  rw [Model.loadAll, hload]
  rfl

/-- The test whether a configuration is the one of the file. -/
def isSupplied : Except Failure Config → Bool
  | .ok ⟨[], _, [("a.b", .integer 1)]⟩ => true
  | _ => false

theorem config_loaded : ∃ config, Config.load files "rules.toml" = .ok config ∧
    config.models = [] ∧ config.storedValues = [("a.b", Value.ofInt 1)] := by
  -- The kernel evaluates the test on what is loaded, and nothing else passes it.
  have h : isSupplied (Config.load files "rules.toml") = true := by decide +kernel
  rw [isSupplied.eq_def] at h
  split at h
  · rename_i hconfig
    exact ⟨_, hconfig, rfl, rfl⟩
  · cases h

theorem keyChars : ∀ c ∈ "a.b".toList, Qualifier.isKeyChar c = true := by decide +kernel

theorem pieces : [] ∉ Text.splitOn '.' "a.b".toList := by
  rw [show Text.splitOn '.' "a.b".toList = [['a'], ['b']] from rfl]
  decide

end Dotted

theorem answer_supplied_dotted :
    answer Dotted.files { overrides := [⟨"a.b", Value.ofInt 1⟩] } "a.b" false =
      .ok (.value (Value.ofInt 1)) ∧
    answer Dotted.files { models := ["m.rules"] } "a.b" false = .ok .nothing ∧
    answer Dotted.files { config := some "rules.toml" } "a.b" false = .ok .nothing := by
  obtain ⟨hoverride, -, hrule, hstored⟩ :=
    @answer_supplied Dotted.files "a.b" (Value.ofInt 1) Dotted.keyChars Dotted.pieces rfl
  obtain ⟨config, hconfig, hmodels, hvalues⟩ := Dotted.config_loaded
  have hpoint : '.' ∈ "a.b".toList := by decide
  have hfirst := hrule { models := ["m.rules"] } Priority.normal rfl rfl Dotted.rules_loaded
  have hsecond := hstored "rules.toml" config rfl hconfig hmodels hvalues
  rw [if_pos hpoint] at hfirst hsecond
  exact ⟨hoverride, hfirst, hsecond⟩

/-- Neither a rule nor a value of a configuration answers every path that it is for. -/
theorem not_all_supplied_answer :
    (¬∀ (files : Files) (source : Source) (key : String) (value : Value) (priority : Int),
      (∀ c ∈ key.toList, Qualifier.isKeyChar c = true) → [] ∉ Text.splitOn '.' key.toList →
      value.isNull = false → source.config = none → source.overrides = [] →
      source.rules files = .ok [Context.constantRule key value priority] →
      answer files source key false = .ok (.value value)) ∧
    ¬∀ (files : Files) (name : String) (config : Config) (key : String) (value : Value),
      (∀ c ∈ key.toList, Qualifier.isKeyChar c = true) → [] ∉ Text.splitOn '.' key.toList →
      value.isNull = false → files.has name = true → Config.load files name = .ok config →
      config.models = [] → config.storedValues = [(key, value)] →
      answer files { config := some name } key false = .ok (.value value) := by
  constructor
  · intro h
    have hclaimed := h Dotted.files { models := ["m.rules"] } "a.b" (Value.ofInt 1) Priority.normal
      Dotted.keyChars Dotted.pieces rfl rfl rfl Dotted.rules_loaded
    rw [answer_rule Dotted.keyChars Dotted.pieces rfl rfl rfl Dotted.rules_loaded] at hclaimed
    exact nomatch hclaimed
  · intro h
    obtain ⟨config, hconfig, hmodels, hvalues⟩ := Dotted.config_loaded
    have hclaimed := h Dotted.files "rules.toml" config "a.b" (Value.ofInt 1) Dotted.keyChars
      Dotted.pieces rfl rfl hconfig hmodels hvalues
    rw [answer_config Dotted.keyChars Dotted.pieces rfl rfl hconfig hmodels hvalues] at hclaimed
    exact nomatch hclaimed

end Source

end RankedRules
