/-
Actions and rules.

A rule says: under this condition, this key has this value, with this priority. Its action is an
assignment of a constant, an assignment of the value at a key path, several actions of which the
last one gives the value, or a nested rule. Firing an action returns the value and stores nothing.

* `Action`, `Rule` — the types;
* `Action.targets`, `Rule.isCandidate` — which keys an action is for;
* `Action.fire`, `Rule.fire` — the value that an action gives;
* `Rule.specificity` — of the qualifier, or that of `*true*` without one;
* `Action.text`, `Rule.text` — the canonical texts, `Action.literal` of a constant in them;
* `Rule.same` — equality of rules, also their `==`: same priority, same action and a qualifier of
  the same text.
-/
import RankedRules.PropertyList.Printer
import RankedRules.Qualifier.Basic

namespace RankedRules

mutual

/-- What a rule does to a key. -/
inductive Action
  | assign (key : String) (value : Value)
  | reference (key : String) (path : String)
  | compound (members : List Action)
  | rule (rule : Rule)

/-- A condition, an action and a priority. Both parts may be missing. -/
structure Rule where
  qualifier : Option Qualifier
  action : Option Action
  priority : Int

end

instance : Inhabited Action := ⟨.compound []⟩

instance : Inhabited Rule := ⟨⟨none, none, 0⟩⟩

namespace Action

/-- Several actions as one; a single one stays as it is. -/
def all : List Action → Action
  | [action] => action
  | actions => .compound actions

/-- The key of an assignment. -/
def key? : Action → Option String
  | .assign key _ => some key
  | .reference key _ => some key
  | _ => none

/-- A constant as the rule grammar reads it: strings in double quotes, collections as property
lists. -/
def literal : Value → String
  | .null => "null"
  | .bool holds => if holds then "true" else "false"
  | .number n => n.text
  | .string text =>
    "\"" ++ String.ofList (text.toList.flatMap fun c =>
      if c = '\\' ∨ c = '"' then ['\\', c] else [c]) ++ "\""
  | value => PropertyList.text value

end Action

namespace Rule

/-- The specificity of the qualifier; a rule without one ranks like `*true*`. -/
def specificity (rule : Rule) : Int :=
  match rule.qualifier with
  | some qualifier => qualifier.specificity
  | none => -1

end Rule

mutual

/-- Whether an action gives a value to a key. The empty key is a target of every nested rule. -/
def Action.targets (key : String) : Action → Bool
  | .assign target _ => target == key
  | .reference target _ => target == key
  | .compound members => Action.anyTargets key members
  | .rule rule => rule.targets key

/-- Whether one of several actions gives a value to a key. -/
def Action.anyTargets (key : String) : List Action → Bool
  | [] => false
  | action :: rest => action.targets key || Action.anyTargets key rest

/-- Whether a rule gives a value to a key; every rule does to the empty one. -/
def Rule.targets (key : String) : Rule → Bool
  | ⟨_, none, _⟩ => key.isEmpty
  | ⟨_, some action, _⟩ => key.isEmpty || action.targets key

end

/-- Whether a rule is a candidate for a key; without a key, every rule is. -/
def Rule.isCandidate (key? : Option String) (rule : Rule) : Bool :=
  match key? with
  | none => true
  | some key => rule.targets key

/-- Whether an action is a candidate for a key; without a key, every action is. -/
def Action.isCandidate (key? : Option String) (action : Action) : Bool :=
  match key? with
  | none => true
  | some key => action.targets key

section Firing

variable {m : Type → Type} [Monad m] [MonadExceptOf EvalError m]

mutual

/-- The value that an action gives. -/
def Action.fire (look : Lookup m) : Action → m (Option Value)
  | .assign _ value => pure value.present
  | .reference _ path => look.path path
  | .compound members => Action.fireAll look none members
  | .rule rule => rule.fire look

/-- Fires several actions in order: the value of the last one, or `last` without any. -/
def Action.fireAll (look : Lookup m) (last : Option Value) : List Action → m (Option Value)
  | [] => pure last
  | action :: rest => do
    let value ← action.fire look
    Action.fireAll look value rest

/-- The value that a rule gives; its condition is not asked. -/
def Rule.fire (look : Lookup m) : Rule → m (Option Value)
  | ⟨_, none, _⟩ => pure none
  | ⟨_, some action, _⟩ => action.fire look

end

end Firing

mutual

/-- The canonical text of an action. -/
def Action.text : Action → String
  | .assign key value => key ++ " = " ++ Action.literal value
  | .reference key path => key ++ " = " ++ path
  | .compound members => "[" ++ Text.join ", " (Action.texts members) ++ "]"
  | .rule rule => "(" ++ rule.text ++ ")"

/-- The canonical texts of several actions. -/
def Action.texts : List Action → List String
  | [] => []
  | action :: rest => action.text :: Action.texts rest

/-- The canonical text of a rule. -/
def Rule.text : Rule → String
  | ⟨qualifier, action, priority⟩ =>
    (match qualifier with
      | some q => q.text
      | none => "*true*") ++
      " => " ++
      (match action with
        | some action => action.text
        | none => "null") ++
      " ; " ++ String.ofList (Number.integerChars priority)

end

mutual

/-- Equality of actions. -/
def Action.same : Action → Action → Bool
  | .assign k v, .assign l w => k == l && v == w
  | .reference k p, .reference l q => k == l && p == q
  | .compound as, .compound bs => Action.sameAll as bs
  | .rule r, .rule s => r.same s
  | _, _ => false

/-- Equality of lists of actions. -/
def Action.sameAll : List Action → List Action → Bool
  | [], [] => true
  | a :: as, b :: bs => a.same b && Action.sameAll as bs
  | _, _ => false

/-- Equality of rules. -/
def Rule.same : Rule → Rule → Bool
  | ⟨p, none, m⟩, ⟨q, none, n⟩ => m == n && p.map Qualifier.text == q.map Qualifier.text
  | ⟨p, some a, m⟩, ⟨q, some b, n⟩ =>
    m == n && a.same b && p.map Qualifier.text == q.map Qualifier.text
  | _, _ => false

end

instance : BEq Action := ⟨Action.same⟩

instance : BEq Rule := ⟨Rule.same⟩

mutual

/-- The key paths whose values an action gives. -/
def Action.paths : Action → List String
  | .assign _ _ => []
  | .reference _ path => [path]
  | .compound members => Action.pathsOfAll members
  | .rule rule => rule.actionPaths

/-- The key paths whose values several actions give. -/
def Action.pathsOfAll : List Action → List String
  | [] => []
  | action :: rest => action.paths ++ Action.pathsOfAll rest

/-- The key paths whose values the action of a rule gives. -/
def Rule.actionPaths : Rule → List String
  | ⟨_, none, _⟩ => []
  | ⟨_, some action, _⟩ => action.paths

end

/-- The key paths that a rule reads: those of its condition and those of its action. -/
def Rule.paths (rule : Rule) : List String :=
  (match rule.qualifier with
    | some q => q.paths
    | none => []) ++ rule.actionPaths

end RankedRules
