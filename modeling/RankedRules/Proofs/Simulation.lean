/-
Evaluation in two monads at once.

Conditions and actions are evaluated in any monad with errors, and all that they ask of it is a
lookup. So a relation between two monads that the monad operations respect, and that holds between
the answers of two lookups to the keys that are read, also holds between the results.

* `Simulation` — such a relation; it need not hold between two raised cycles;
* `Simulation.path`, `Simulation.evaluate`, `Simulation.fire` — related lookups give related
  answers to a path, related truth values of a condition, related values of an action;
* `Simulation.fireFirst`, `Simulation.fireAll` — and related results of a list of rules, if they
  are related at the keys that the rules read.

Each later property of inference is an instance of the last two: that two lookups agree, that a
cycle comes from a key that was read, that the keys in progress are put back.
-/
import RankedRules.Context.Basic

namespace RankedRules

/-- A relation between evaluations in two monads that every way to combine them respects. Cycles
are never raised by an evaluation itself, so the relation need not hold between them. -/
structure Simulation (m n : Type → Type) [Monad m] [MonadExceptOf EvalError m] [Monad n]
    [MonadExceptOf EvalError n] where
  Related {α : Type} : m α → n α → Prop
  related_pure {α : Type} (a : α) : Related (pure a) (pure a)
  related_throw {α : Type} (error : EvalError) (h : ∀ chain, error ≠ .cyclicReference chain) :
    Related (throw error : m α) (throw error : n α)
  related_bind {α β : Type} {x : m α} {y : n α} {f : α → m β} {g : α → n β} :
    Related x y → (∀ a, Related (f a) (g a)) → Related (x >>= f) (y >>= g)
  related_recover {α : Type} (a : α) {x : m α} {y : n α} :
    Related x y → Related (EvalError.recover a x) (EvalError.recover a y)

namespace Simulation

variable {m n : Type → Type} [Monad m] [MonadExceptOf EvalError m] [Monad n]
  [MonadExceptOf EvalError n] (S : Simulation m n) {look : Lookup m} {other : Lookup n}

/-- The answers of the two lookups to some keys are related. -/
def On (look : Lookup m) (other : Lookup n) (keys : List String) : Prop :=
  ∀ key ∈ keys, S.Related (look key) (other key)

theorem on_append {keys more : List String} :
    S.On look other (keys ++ more) ↔ S.On look other keys ∧ S.On look other more :=
  List.forall_mem_append

theorem on_firsts_append {paths more : List String} :
    S.On look other (KeyPath.firsts (paths ++ more)) ↔
      S.On look other (KeyPath.firsts paths) ∧ S.On look other (KeyPath.firsts more) := by
  rw [KeyPath.firsts, List.filterMap_append]
  exact S.on_append

/-! ## Paths -/

theorem segments {first : String} (h : S.Related (look first) (other first))
    (rest : List String) :
    S.Related (look.segments (first :: rest)) (other.segments (first :: rest)) :=
  S.related_bind h fun _ => S.related_pure _

theorem path {path : String} (h : S.On look other (KeyPath.firsts [path])) :
    S.Related (look.path path) (other.path path) := by
  rw [Lookup.path, Lookup.path, KeyPath.segments]
  cases hs : KeyPath.segments? path with
  | none => exact S.related_throw _ (by simp)
  | some segments =>
    cases segments with
    | nil => exact S.related_pure none
    | cons first rest =>
      have hfirst : first ∈ KeyPath.firsts [path] := by
        simp [KeyPath.firsts, KeyPath.first?, hs]
      exact S.segments (h first hfirst) rest

/-! ## Conditions -/

mutual

theorem evaluate : ∀ (q : Qualifier), S.On look other (KeyPath.firsts q.paths) →
    S.Related (q.evaluate look) (q.evaluate other)
  | .constant holds, _ => S.related_pure holds
  | .compare path op value, h => S.related_bind (S.path h) fun _ => S.related_pure _
  | .compareKeys left op right, h => by
    rw [Qualifier.paths, ← List.singleton_append] at h
    obtain ⟨hl, hr⟩ := S.on_firsts_append.1 h
    exact S.related_bind (S.path hl) fun _ => S.related_bind (S.path hr) fun _ => S.related_pure _
  | .not inner, h => S.related_bind (evaluate inner h) fun _ => S.related_pure _
  | .compound connective members, h => evaluateAll connective members h
  | .unsupported text _, _ => S.related_throw _ (by simp)

theorem evaluateAll (connective : Connective) : ∀ (members : List Qualifier),
    S.On look other (KeyPath.firsts (Qualifier.pathsOfAll members)) →
    S.Related (Qualifier.evaluateAll look connective members)
      (Qualifier.evaluateAll other connective members)
  | [], _ => S.related_pure _
  | q :: rest, h => by
    obtain ⟨hq, hrest⟩ := S.on_firsts_append.1 h
    refine S.related_bind (evaluate q hq) fun holds => ?_
    split
    · exact evaluateAll connective rest hrest
    · exact S.related_pure holds

end

theorem holds {rule : Rule} (h : S.On look other (KeyPath.firsts rule.paths)) :
    S.Related (rule.holds look) (rule.holds other) := by
  have hq := (S.on_firsts_append.1 h).1
  rw [Rule.holds, Rule.holds]
  split
  · exact S.related_pure false
  · rename_i q hrule
    rw [hrule] at hq
    exact S.related_recover false (S.evaluate q hq)

/-! ## Actions -/

mutual

theorem fire : ∀ (action : Action), S.On look other (KeyPath.firsts action.paths) →
    S.Related (action.fire look) (action.fire other)
  | .assign _ value, _ => S.related_pure value.present
  | .reference _ _, h => S.path h
  | .compound members, h => fireMembers none members h
  | .rule rule, h => fireRule rule h

theorem fireMembers (last : Option Value) : ∀ (members : List Action),
    S.On look other (KeyPath.firsts (Action.pathsOfAll members)) →
    S.Related (Action.fireAll look last members) (Action.fireAll other last members)
  | [], _ => S.related_pure last
  | action :: rest, h => by
    obtain ⟨haction, hrest⟩ := S.on_firsts_append.1 h
    exact S.related_bind (fire action haction) fun value => fireMembers value rest hrest

theorem fireRule : ∀ (rule : Rule), S.On look other (KeyPath.firsts rule.actionPaths) →
    S.Related (rule.fire look) (rule.fire other)
  | ⟨_, none, _⟩, _ => S.related_pure none
  | ⟨_, some action, _⟩, h => fire action h

end

/-! ## Lists of rules -/

theorem on_keysRead_cons {rule : Rule} {rest : List Rule} :
    S.On look other (Context.keysRead (rule :: rest)) ↔
      S.On look other (KeyPath.firsts rule.paths) ∧ S.On look other (Context.keysRead rest) :=
  S.on_append

/-- Related lookups give related values of the first rule that applies. -/
theorem fireFirst : ∀ {rules : List Rule}, S.On look other (Context.keysRead rules) →
    S.Related (Context.fireFirst look rules) (Context.fireFirst other rules)
  | [], _ => S.related_pure none
  | rule :: rest, h => by
    obtain ⟨hrule, hrest⟩ := S.on_keysRead_cons.1 h
    refine S.related_bind (S.holds hrule) fun holds => ?_
    cases holds with
    | true => exact S.fireRule rule (S.on_firsts_append.1 hrule).2
    | false => exact fireFirst hrest

/-- Related lookups give related values of all rules that apply. -/
theorem fireAll : ∀ {rules : List Rule}, S.On look other (Context.keysRead rules) →
    S.Related (Context.fireAll look rules) (Context.fireAll other rules)
  | [], _ => S.related_pure []
  | rule :: rest, h => by
    obtain ⟨hrule, hrest⟩ := S.on_keysRead_cons.1 h
    refine S.related_bind (S.holds hrule) fun holds => ?_
    cases holds with
    | true =>
      refine S.related_bind (S.fireRule rule (S.on_firsts_append.1 hrule).2) fun value => ?_
      exact S.related_bind (fireAll hrest) fun values => S.related_pure _
    | false => exact fireAll hrest

end Simulation

end RankedRules
