/-
Inference with the keys in progress as a state.

Here the keys in progress are not handed down but kept in one list that all nested inferences
share: a key is put on the list when its rules are asked for and taken off when they are done,
also by an error. An evaluation has no result if it nests deeper than it may. The rules are
evaluated by the same functions as elsewhere, in another monad.

* `Progress`, `Run` — the state, which also records all lists of keys in progress there have been,
  and the monad of such evaluations;
* `Run.within` — an evaluation with one more key in progress;
* `Context.runValue`, `Context.runInferred`, `Context.runAllValues` — the queries;
* `Run.Follows` — a run ends with a given result and puts the keys in progress back;
* `Context.runValue_follows` — the value of a key does, with the result of `Context.reader`, if it
  may nest as deep as there is room for keys;
* `Context.queries_return` — so every query returns, from any keys in progress.
-/
import RankedRules.Proofs.Inference.Reads

namespace RankedRules

/-- The keys in progress, outermost first, and all the lists of keys in progress that there have
been since the start, the latest first. -/
structure Progress where
  active : List String
  past : List (List String)

/-- Other keys in progress from now on. -/
def Progress.become (progress : Progress) (active : List String) : Progress :=
  ⟨active, active :: progress.past⟩

/-- An evaluation with the keys in progress as its state, which an error does not undo. It has no
result if it would nest too deep. -/
def Run (α : Type) : Type := Progress → Option (Except EvalError α × Progress)

namespace Run

instance : Monad Run where
  pure a := fun progress => some (.ok a, progress)
  bind x f := fun progress =>
    match x progress with
    | none => none
    | some (.ok a, progress) => f a progress
    | some (.error error, progress) => some (.error error, progress)

instance : MonadExceptOf EvalError Run where
  throw error := fun progress => some (.error error, progress)
  tryCatch x handle := fun progress =>
    match x progress with
    | none => none
    | some (.ok a, progress) => some (.ok a, progress)
    | some (.error error, progress) => handle error progress

variable {α β : Type}

/-- No result: the evaluation would nest too deep. -/
def tooDeep : Run α := fun _ => none

/-- An evaluation with one more key in progress, which is taken off again whatever comes out. A key
that is in progress already is a cycle. -/
def within (key : String) (body : Run α) : Run α := fun progress =>
  match Context.cycle? progress.active key with
  | some chain => some (.error (.cyclicReference chain), progress)
  | none =>
    match body (progress.become (progress.active ++ [key])) with
    | none => none
    | some (result, progress) => some (result, progress.become progress.active.dropLast)

end Run

/-! ## The queries -/

namespace Context

/-- What the ranked rules for a key give while the key is in progress. -/
def runRules {α : Type} (c : Context) (key : String) (nothing : α) (evaluate : List Rule → Run α) :
    Run α :=
  if key.isEmpty then
    pure nothing
  else
    match c.model with
    | none => pure nothing
    | some model =>
      Run.within key <|
        match model.candidates? (some key) with
        | none => pure nothing
        | some rules => evaluate rules

/-- The value that the best rule for a key gives, read through `look`. -/
def runInferred (c : Context) (look : Lookup Run) (key : String) : Run (Option Value) :=
  c.runRules key none (fireFirst look)

/-- The values of all rules for a key that apply, read through `look`. -/
def runAllValues (c : Context) (look : Lookup Run) (key : String) : Run (Option (List Value)) :=
  c.runRules key none fun rules => do
    let values ← fireAll look rules
    pure (some values)

/-- The stored value of a key, or else the inferred one. The nesting is at most `depth`. -/
def runValue (c : Context) : Nat → Lookup Run
  | 0, _ => Run.tooDeep
  | depth + 1, key =>
    if key.isEmpty then
      pure none
    else
      match c.storedValue key with
      | some value => pure (some value)
      | none => c.runInferred (c.runValue depth) key

end Context

/-! ## Runs that follow a result -/

namespace Run

variable {α β : Type}

/-- With these keys in progress, the run ends with this result and the same keys in progress. On
the way, all lists of keys in progress are `ok`. -/
def Follows (active : List String) (ok : List String → Prop) (x : Run α)
    (result : Except EvalError α) : Prop :=
  ∀ past, ∃ new, x ⟨active, past⟩ = some (result, ⟨active, new ++ past⟩) ∧ ∀ stack ∈ new, ok stack

variable {active : List String} {ok : List String → Prop}

theorem follows_of_eq {x : Run α} {result : Except EvalError α}
    (h : ∀ progress, x progress = some (result, progress)) : Follows active ok x result :=
  fun past => ⟨[], h _, by simp⟩

theorem Follows.mono {x : Run α} {result : Except EvalError α} (h : Follows active ok x result)
    {weaker : List String → Prop} (hok : ∀ stack, ok stack → weaker stack) :
    Follows active weaker x result := by
  intro past
  obtain ⟨new, hnew, hall⟩ := h past
  exact ⟨new, hnew, fun stack hstack => hok stack (hall stack hstack)⟩

theorem Follows.bind {x : Run α} {y : Except EvalError α} {f : α → Run β}
    {g : α → Except EvalError β} (hx : Follows active ok x y)
    (hf : ∀ a, Follows active ok (f a) (g a)) : Follows active ok (x >>= f) (y >>= g) := by
  intro past
  obtain ⟨new, hnew, hok⟩ := hx past
  cases y with
  | error error => exact ⟨new, by simp only [Bind.bind, hnew, Except.bind], hok⟩
  | ok a =>
    obtain ⟨more, hmore, hokMore⟩ := hf a (new ++ past)
    refine ⟨more ++ new, ?_, List.forall_mem_append.2 ⟨hokMore, hok⟩⟩
    simp only [Bind.bind, hnew, Except.bind, hmore, List.append_assoc]

theorem Follows.recover (a : α) {x : Run α} {y : Except EvalError α}
    (hx : Follows active ok x y) :
    Follows active ok (EvalError.recover a x) (EvalError.recover a y) := by
  intro past
  obtain ⟨new, hnew, hok⟩ := hx past
  refine ⟨new, ?_, hok⟩
  simp only [EvalError.recover, tryCatch, tryCatchThe, MonadExceptOf.tryCatch, hnew]
  cases y with
  | ok a => rfl
  | error error => cases error <;> rfl

/-- To follow a result, as a simulation. -/
def simulation (active : List String) (ok : List String → Prop) :
    Simulation Run (Except EvalError) where
  Related := Follows active ok
  related_pure _ := follows_of_eq fun _ => rfl
  related_throw _ _ := follows_of_eq fun _ => rfl
  related_bind := Follows.bind
  related_recover := Follows.recover

/-! ## The lists on the way -/

/-- A list of keys in progress behind `active`: each further key is one of `keys`, and none of
them is in progress twice. -/
def Extends (active : List String) (keys : Finset String) (stack : List String) : Prop :=
  ∃ added, stack = active ++ added ∧ added.Nodup ∧ ∀ key ∈ added, key ∉ active ∧ key ∈ keys

theorem extends_self (active : List String) (keys : Finset String) :
    Extends active keys active :=
  ⟨[], by simp⟩

theorem Extends.mono {active : List String} {keys more : Finset String} {stack : List String}
    (h : Extends active keys stack) (hsub : keys ⊆ more) : Extends active more stack := by
  obtain ⟨added, hstack, hnodup, hadded⟩ := h
  exact ⟨added, hstack, hnodup, fun key hkey => (hadded key hkey).imp_right (hsub ·)⟩

theorem Extends.of_append {active : List String} {keys more : Finset String} {key : String}
    {stack : List String} (h : Extends (active ++ [key]) keys stack) (hkey : key ∉ active)
    (hmem : key ∈ more) (hsub : keys ⊆ more) : Extends active more stack := by
  obtain ⟨added, rfl, hnodup, hadded⟩ := h
  refine ⟨key :: added, by simp, List.nodup_cons.2 ⟨?_, hnodup⟩, ?_⟩
  · intro h
    exact (hadded key h).1 (by simp)
  · intro k hk
    rcases List.mem_cons.1 hk with rfl | hk
    · exact ⟨hkey, hmem⟩
    · obtain ⟨hactive, hkeys⟩ := hadded k hk
      exact ⟨fun h => hactive (List.mem_append_left _ h), hsub hkeys⟩

theorem Extends.length_le {active : List String} {keys : Finset String} {stack : List String}
    (h : Extends active keys stack) : stack.length ≤ active.length + keys.card := by
  obtain ⟨added, rfl, hnodup, hadded⟩ := h
  have hcard : added.toFinset.card ≤ keys.card :=
    Finset.card_le_card fun k hk => (hadded k (List.mem_toFinset.1 hk)).2
  rw [List.toFinset_card_of_nodup hnodup] at hcard
  rw [List.length_append]
  omega

/-- With one more key in progress a body ends with that key still the last one, so taking it off
puts the keys in progress back. -/
theorem Follows.within {keys more : Finset String} {key : String} {body : Run α}
    {result : Except EvalError α} (hkey : key ∉ active) (hmem : key ∈ more) (hsub : keys ⊆ more)
    (h : Follows (active ++ [key]) (Extends (active ++ [key]) keys) body result) :
    Follows active (Extends active more) (Run.within key body) result := by
  intro past
  -- The body starts with the longer list recorded, and the shorter one is recorded after it.
  obtain ⟨new, hnew, hok⟩ := h ((active ++ [key]) :: past)
  refine ⟨active :: (new ++ [active ++ [key]]), ?_, ?_⟩
  · simp only [Run.within, Context.cycle?_of_notMem hkey, Progress.become, hnew]
    simp
  · intro stack hstack
    rcases List.mem_cons.1 hstack with rfl | hstack
    · exact extends_self _ _
    rcases List.mem_append.1 hstack with hstack | hstack
    · exact (hok stack hstack).of_append hkey hmem hsub
    · rw [List.mem_singleton.1 hstack]
      exact (extends_self _ keys).of_append hkey hmem hsub

end Run

/-! ## Runs of the queries -/

namespace Context

open Run

variable {c : Context} {active : List String} {key : String}

/-- The rules for a key are followed if they are while the key is in progress. -/
theorem runRules_follows {α : Type} {nothing : α} {evaluate : List Rule → Run α}
    {f : List Rule → Except EvalError α}
    (h : key ∉ active → Follows (active ++ [key]) (Extends (active ++ [key]) c.mentioned)
      (evaluate (c.rulesFor key)) (f (c.rulesFor key))) :
    Follows active (Extends active (insert key c.mentioned)) (c.runRules key nothing evaluate)
      (c.candidatesWithin active key >>= fun
        | none => .ok nothing
        | some rules => f rules) := by
  rw [runRules, candidatesWithin]
  by_cases hempty : key.isEmpty
  · rw [if_pos hempty, if_pos hempty]
    exact follows_of_eq fun _ => rfl
  rw [if_neg hempty, if_neg hempty]
  cases hm : c.model with
  | none => exact follows_of_eq fun _ => rfl
  | some model =>
    by_cases hkey : key ∈ active
    · -- The cycle is reported before the key is put to those in progress.
      obtain ⟨front, back, -, hcycle⟩ := cycle?_of_mem hkey
      simp only [hcycle]
      intro past
      exact ⟨[], by simp only [Run.within, hcycle]; rfl, by simp⟩
    · simp only [cycle?_of_notMem hkey]
      refine Follows.within hkey (Finset.mem_insert_self _ _) (Finset.subset_insert _ _) ?_
      have hrules := h hkey
      rw [rulesFor, hm, Option.bind_some] at hrules
      cases hc : model.candidates? (some key) with
      | none => exact follows_of_eq fun _ => rfl
      | some rules =>
        rw [hc] at hrules
        exact hrules

/-- What the rules for a key read is followed while the key is in progress, if all keys with less
room are. -/
theorem reads_follow {depth : Nat}
    (h : ∀ {active : List String} {key : String}, c.room active key < depth →
      Follows active (Extends active (insert key c.mentioned)) (c.runValue depth key)
        (c.reader active key))
    (hroom : c.room active key ≤ depth) (hkey : key ∉ active) :
    (Run.simulation (active ++ [key]) (Extends (active ++ [key]) c.mentioned)).On
      (c.runValue depth) (c.reader (active ++ [key])) (keysRead (c.rulesFor key)) := by
  intro other hother
  have hmentioned := Reads.mem_mentioned hother
  have hfollows := h (Nat.lt_of_lt_of_le (room_lt hkey hmentioned) hroom)
  rwa [Finset.insert_eq_of_mem hmentioned] at hfollows

/-- The value of a key is followed if the nesting may be as deep as there is room for keys. -/
theorem runValue_follows {depth : Nat} (hroom : c.room active key < depth) :
    Follows active (Extends active (insert key c.mentioned)) (c.runValue depth key)
      (c.reader active key) := by
  induction depth generalizing active key with
  | zero => exact absurd hroom (Nat.not_lt_zero _)
  | succ depth ih =>
    rw [runValue, reader_eq]
    by_cases hempty : key.isEmpty
    · rw [if_pos hempty, if_pos hempty]
      exact follows_of_eq fun _ => rfl
    rw [if_neg hempty, if_neg hempty]
    cases c.storedValue key with
    | some value => exact follows_of_eq fun _ => rfl
    | none =>
      exact runRules_follows fun hkey =>
        (Run.simulation _ _).fireFirst (reads_follow ih (Nat.le_of_lt_succ hroom) hkey)

theorem runInferred_follows {depth : Nat} (hroom : c.room active key < depth) :
    Follows active (Extends active (insert key c.mentioned)) (c.runInferred (c.runValue depth) key)
      (c.inferThrough (c.reader (active ++ [key])) active key) :=
  runRules_follows fun hkey =>
    (Run.simulation _ _).fireFirst (reads_follow runValue_follows hroom.le hkey)

theorem runAllValues_follows {depth : Nat} (hroom : c.room active key < depth) :
    Follows active (Extends active (insert key c.mentioned))
      (c.runAllValues (c.runValue depth) key)
      (c.allThrough (c.reader (active ++ [key])) active key) :=
  runRules_follows fun hkey =>
    ((Run.simulation _ _).fireAll (reads_follow runValue_follows hroom.le hkey)).bind
      fun _ => follows_of_eq fun _ => rfl

/-- A query returns, however deep it may nest beyond the number of mentioned keys. In the end the
keys in progress are those of the beginning. All lists of keys in progress on the way hold further
keys behind these, each of them once: requested keys and keys that the model mentions, so no more
than the latter and one. -/
def Returns {α : Type} (c : Context) (requested active : List String) (run : Nat → Run α)
    (result : Except EvalError α) : Prop :=
  ∀ depth ≥ c.mentioned.card + 2, ∃ trail,
    run depth ⟨active, []⟩ = some (result, ⟨active, trail⟩) ∧
    ∀ stack ∈ trail, ∃ added, stack = active ++ added ∧ added.Nodup ∧
      (∀ key ∈ added, key ∉ active ∧ (key ∈ requested ∨ key ∈ c.mentioned)) ∧
      added.length ≤ c.mentioned.card + 1

theorem returns_of_follows {α : Type} {requested : List String} {run : Nat → Run α}
    {result : Except EvalError α} (hlen : requested.length ≤ 1)
    (h : ∀ depth ≥ c.mentioned.card + 2,
      Follows active (Extends active (requested.toFinset ∪ c.mentioned)) (run depth) result) :
    c.Returns requested active run result := by
  intro depth hdepth
  obtain ⟨trail, hrun, hok⟩ := h depth hdepth []
  rw [List.append_nil] at hrun
  refine ⟨trail, hrun, fun stack hstack => ?_⟩
  -- A list without repetitions is no longer than the set its keys are from.
  have hlength := (hok stack hstack).length_le
  obtain ⟨added, rfl, hnodup, hadded⟩ := hok stack hstack
  refine ⟨added, rfl, hnodup, fun key hkey => ?_, ?_⟩
  · simpa using hadded key hkey
  · have hunion := Finset.card_union_le requested.toFinset c.mentioned
    have hrequested := requested.toFinset_card_le
    rw [List.length_append] at hlength
    omega

/-- A query of a single key returns if it is followed wherever there is depth enough for it. -/
theorem returns_of_room_lt {α : Type} {run : Nat → Run α} {result : Except EvalError α}
    (h : ∀ depth, c.room active key < depth →
      Follows active (Extends active (insert key c.mentioned)) (run depth) result) :
    c.Returns [key] active run result := by
  refine returns_of_follows le_rfl fun depth hdepth => ?_
  have hroom := c.room_le active key
  have hkeys : insert key c.mentioned = [key].toFinset ∪ c.mentioned := by simp
  rw [← hkeys]
  exact h depth (by omega)

/-- A path is looked up through its first segment, so that is the only key it requests. -/
theorem runPath_returns (path : String) :
    c.Returns (KeyPath.firsts [path]) active (fun depth => (c.runValue depth).path path)
      ((c.reader active).path path) := by
  refine returns_of_follows (List.length_filterMap_le _ _) fun depth hdepth => ?_
  refine (Run.simulation _ _).path fun key hkey => ?_
  have hroom : c.room active key < depth := Nat.lt_of_le_of_lt (c.room_le active key) hdepth
  refine (runValue_follows hroom).mono fun stack hstack => hstack.mono ?_
  refine Finset.insert_subset (Finset.mem_union_left _ ?_) Finset.subset_union_right
  exact List.mem_toFinset.2 hkey

/-- Every query returns, from any keys in progress; from none it gives the value, the inferred
value, all values of the key or the value at the path. -/
theorem queries_return (c : Context) (active : List String) :
    (∀ key, ∃ result, c.Returns [key] active (fun depth => c.runValue depth key) result ∧
      (active = [] → result = c.value key)) ∧
    (∀ key, ∃ result,
      c.Returns [key] active (fun depth => c.runInferred (c.runValue depth) key) result ∧
      (active = [] → result = c.inferred key)) ∧
    (∀ key, ∃ result,
      c.Returns [key] active (fun depth => c.runAllValues (c.runValue depth) key) result ∧
      (active = [] → result = c.allValues key)) ∧
    (∀ path, ∃ result,
      c.Returns (KeyPath.firsts [path]) active (fun depth => (c.runValue depth).path path) result ∧
      (active = [] → result = c.path path)) :=
  ⟨fun key => ⟨_, returns_of_room_lt fun _ => runValue_follows, by rintro rfl; rfl⟩,
    fun key => ⟨_, returns_of_room_lt fun _ => runInferred_follows, by rintro rfl; rfl⟩,
    fun key => ⟨_, returns_of_room_lt fun _ => runAllValues_follows, by rintro rfl; rfl⟩,
    fun path => ⟨_, runPath_returns path, by rintro rfl; rfl⟩⟩

/-- Of two keys that wait for each other, both are taken off again with the error. -/
example :
    let waiting : Context :=
      { model := some ⟨[⟨some (.constant true), some (.reference "a" "b"), 0⟩,
          ⟨some (.constant true), some (.reference "b" "a"), 0⟩]⟩ }
    waiting.runValue 4 "a" ⟨[], []⟩ =
      some (.error (.cyclicReference ["a", "b", "a"]),
        ⟨[], [[], ["a"], ["a", "b"], ["a"]]⟩) :=
  rfl

end Context

end RankedRules
