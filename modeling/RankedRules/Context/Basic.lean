/-
Contexts: stored values in front of a model.

A context answers a key with its stored value, and without one with the value of the best rule for
the key whose condition holds. Conditions and actions read other keys of the same context, so one
inference may start others. The keys whose inference is in progress are carried along, outermost
first, and a key that is read while it is in progress is a cycle.

* `Context` — a model or none, and the stored values;
* `Rule.holds` — whether a rule applies; a condition that cannot be evaluated does not hold;
* `Context.fireFirst`, `Context.fireAll` — the value of the first rule that applies, and of all;
* `Context.valueWithin` — the value of a key while others are in progress, for a depth of nesting;
* `Context.budget` — a depth that is never exceeded: a key is in progress once at most, and all
  but the first are mentioned by the model;
* `Context.value`, `Context.path`, `Context.inferred`, `Context.allValues` — the queries.
-/
import RankedRules.Model

namespace RankedRules

/-- Whether a rule applies. Without a condition it does not, nor if its condition cannot be
evaluated; but a cycle in the condition is an error. -/
def Rule.holds {m : Type → Type} [Monad m] [MonadExceptOf EvalError m] (look : Lookup m)
    (rule : Rule) : m Bool :=
  match rule.qualifier with
  | none => pure false
  | some qualifier => EvalError.recover false (qualifier.evaluate look)

/-- The keys from which a model infers, and the values that come before it. -/
structure Context where
  model : Option Model := none
  stored : Entries Value := []

namespace Context

section Firing

variable {m : Type → Type} [Monad m] [MonadExceptOf EvalError m]

/-- The value of the first rule that applies. -/
def fireFirst (look : Lookup m) : List Rule → m (Option Value)
  | [] => pure none
  | rule :: rest => do
    if ← rule.holds look then rule.fire look else fireFirst look rest

/-- The values of all rules that apply, null standing for nothing. -/
def fireAll (look : Lookup m) : List Rule → m (List Value)
  | [] => pure []
  | rule :: rest => do
    if ← rule.holds look then
      let value ← rule.fire look
      let values ← fireAll look rest
      pure (value.getD .null :: values)
    else
      fireAll look rest

end Firing

/-- The keys from `key` on that are in progress, and `key` again, if `key` is among them. -/
def cycle? (active : List String) (key : String) : Option (List String) :=
  match active.dropWhile (· ≠ key) with
  | [] => none
  | chain => some (chain ++ [key])

/-- The ranked rules for a key, if there are any. To ask for them is an error while the key is in
progress. -/
def candidatesWithin (c : Context) (active : List String) (key : String) :
    Except EvalError (Option (List Rule)) :=
  if key.isEmpty then
    .ok none
  else
    match c.model with
    | none => .ok none
    | some model =>
      match cycle? active key with
      | some chain => .error (.cyclicReference chain)
      | none => .ok (model.candidates? (some key))

/-- The value that the rules for a key give, read through `look`. -/
def inferThrough (c : Context) (look : Lookup (Except EvalError)) (active : List String)
    (key : String) : Except EvalError (Option Value) := do
  match ← c.candidatesWithin active key with
  | none => .ok none
  | some rules => fireFirst look rules

/-- The values that all rules for a key that apply give, read through `look`, best first, or nothing
without candidates. -/
def allThrough (c : Context) (look : Lookup (Except EvalError)) (active : List String)
    (key : String) : Except EvalError (Option (List Value)) := do
  match ← c.candidatesWithin active key with
  | none => .ok none
  | some rules => do
    let values ← fireAll look rules
    .ok (some values)

/-- The value of a key while others are in progress. The nesting is at most `depth`. -/
def valueWithin (c : Context) : Nat → List String → Lookup (Except EvalError)
  | 0, _, _ => .ok none
  | depth + 1, active, key =>
    if key.isEmpty then
      .ok none
    else
      match Entries.find? key c.stored with
      | some value => .ok (some value)
      | none => c.inferThrough (c.valueWithin depth (active ++ [key])) active key

/-- The keys that rules read: the first segments of all their key paths. -/
def keysRead (rules : List Rule) : List String :=
  rules.flatMap fun rule => KeyPath.firsts rule.paths

/-- A depth of nesting that no query exceeds. -/
def budget (c : Context) : Nat :=
  match c.model with
  | none => 2
  | some model => (keysRead model.rules).length + 2

/-- The value of a key while others are in progress. -/
def reader (c : Context) (active : List String) : Lookup (Except EvalError) :=
  c.valueWithin c.budget active

/-- The stored value of a key, or else the inferred one. -/
def value (c : Context) : Lookup (Except EvalError) :=
  c.reader []

/-- The value at a key path. -/
def path (c : Context) (path : String) : Except EvalError (Option Value) :=
  c.value.path path

/-- The value that the best rule for a key gives, whatever is stored under the key. -/
def inferred (c : Context) (key : String) : Except EvalError (Option Value) :=
  c.inferThrough (c.reader [key]) [] key

/-- The values of all rules for a key that apply, best first, or nothing without candidates. -/
def allValues (c : Context) (key : String) : Except EvalError (Option (List Value)) :=
  c.allThrough (c.reader [key]) [] key

/-- The stored value of a key. -/
def storedValue (c : Context) (key : String) : Option Value :=
  Entries.find? key c.stored

end Context

end RankedRules
