/-
Null is never a value of a key.

Null stands for nothing. An assignment of null gives nothing, and a path never leads to null,
whatever the lookup answers, so no rule gives null. Nor is null ever stored: to take it removes
what is stored.

* `Lookup.path_not_null`, `Action.fire_not_null`, `Context.fireFirst_not_null` — what a path, an
  action and a list of rules give is not null;
* `Context.inferThrough_not_null` — nor is an inferred value;
* `Context.storedValue_take` — what is stored after a value has been taken;
* `Context.NullFree` — null is not stored;
* `Context.takePath_keeps`, `Context.whileTaking_keeps` — all ways to write to a context come down
  to taking one value under one key.
-/
import RankedRules.Context.Take
import RankedRules.Proofs.Success

namespace RankedRules

variable {look : Lookup (Except EvalError)}

theorem Lookup.path_not_null {path : String} {value : Value}
    (h : look.path path = .ok (some value)) :
    value.isNull = false := by
  rw [Lookup.path] at h
  split at h
  · rename_i segments _
    cases segments with
    | nil => exact nomatch Except.ok.inj h
    | cons first rest =>
      obtain ⟨found, -, hfound⟩ := bind_eq_ok_iff.1 h
      obtain ⟨start, -, hstart⟩ := Option.bind_eq_some_iff.1 (Except.ok.inj hfound)
      exact Value.descend?_not_null hstart
  · exact nomatch h

mutual

theorem Action.fire_not_null : ∀ {action : Action} {value : Value},
    action.fire look = .ok (some value) → value.isNull = false
  | .assign _ _, _, h => (Value.present_eq_some_iff.1 (Except.ok.inj h)).2
  | .reference _ _, _, h => Lookup.path_not_null h
  | .compound _, _, h => Action.fireAll_not_null (by simp) h
  | .rule _, _, h => Rule.fire_not_null h

theorem Action.fireAll_not_null : ∀ {members : List Action} {last : Option Value} {value : Value},
    (∀ v, last = some v → v.isNull = false) →
    Action.fireAll look last members = .ok (some value) → value.isNull = false
  | [], _, _, hlast, h => hlast _ (Except.ok.inj h)
  | action :: rest, _, _, _, h => by
    obtain ⟨fired, hfired, hrest⟩ := bind_eq_ok_iff.1 h
    refine Action.fireAll_not_null ?_ hrest
    rintro _ rfl
    exact Action.fire_not_null hfired

theorem Rule.fire_not_null : ∀ {rule : Rule} {value : Value},
    rule.fire look = .ok (some value) → value.isNull = false
  | ⟨_, none, _⟩, _, h => nomatch Except.ok.inj h
  | ⟨_, some action, _⟩, _, h => @Action.fire_not_null action _ h

end

namespace Context

theorem fireFirst_not_null {rules : List Rule} {value : Value}
    (h : fireFirst look rules = .ok (some value)) :
    value.isNull = false := by
  induction rules with
  | nil => exact nomatch Except.ok.inj h
  | cons rule rest ih =>
    obtain ⟨holds, -, hfired⟩ := bind_eq_ok_iff.1 h
    cases holds with
    | true => exact Rule.fire_not_null hfired
    | false => exact ih hfired

/-- An inferred value is not null. -/
theorem inferThrough_not_null {c : Context} {active : List String} {key : String} {value : Value}
    (h : c.inferThrough look active key = .ok (some value)) : value.isNull = false := by
  obtain ⟨candidates, -, hfired⟩ := bind_eq_ok_iff.1 h
  cases candidates with
  | none => exact nomatch Except.ok.inj hfired
  | some rules => exact fireFirst_not_null hfired

/-! ## Stored values -/

/-- A value that is taken is stored under its key and no other; null is not stored, and nothing is
under the empty key. -/
theorem storedValue_take (c : Context) (value : Value) (key other : String) :
    (c.take value key).storedValue other =
      if other = key ∧ key ≠ "" then value.present else c.storedValue other := by
  rw [take]
  by_cases hkey : key = ""
  · rw [if_pos (by simp [hkey]), if_neg (fun h => h.2 hkey)]
  rw [if_neg (by simpa using hkey), Value.present]
  by_cases hnull : value.isNull
  · rw [if_pos hnull, if_pos hnull]
    exact (Entries.find?_erase key other c.stored).trans (by simp [hkey, storedValue])
  · rw [if_neg hnull, if_neg hnull]
    exact (Entries.find?_insert key other value c.stored).trans (by simp [hkey, storedValue])

/-- Null is not stored under any key. -/
def NullFree (c : Context) : Prop := ∀ key, c.storedValue key ≠ some .null

/-- To write at a path is to write one value under one key. -/
theorem exists_take_of_takePath {c d : Context} {value : Value} {path : String}
    (h : c.takePath value path = .ok d) : ∃ written key, d = c.take written key := by
  obtain ⟨segments, -, hwritten⟩ := bind_eq_ok_iff.1 h
  match segments, hwritten with
  | [], hwritten => exact ⟨.null, "", (Except.ok.inj hwritten).symm⟩
  | [key], hwritten => exact ⟨value, key, (Except.ok.inj hwritten).symm⟩
  | key :: _ :: _, hwritten => exact ⟨_, key, (Except.ok.inj hwritten).symm⟩

/-- What every write of one value under one key keeps, every write at a path keeps. -/
theorem takePath_keeps {P : Context → Prop}
    (htake : ∀ (c : Context) (value : Value) (key : String), P c → P (c.take value key))
    {c d : Context} (hc : P c) {value : Value} {path : String}
    (hd : c.takePath value path = .ok d) : P d := by
  obtain ⟨written, key, rfl⟩ := exists_take_of_takePath hd
  exact htake c written key hc

/-- So does taking one value after the other, even if an error ends it. -/
theorem whileTaking_keeps {P : Context → Prop}
    (htake : ∀ (c : Context) (value : Value) (key : String), P c → P (c.take value key))
    {c : Context} (hc : P c) (path valuePath : String) (values : List Value) :
    P (c.whileTaking path valuePath values).2 := by
  induction values generalizing c with
  | nil => exact hc
  | cons value rest ih =>
    rw [Context.whileTaking]
    cases htaken : c.takePath value valuePath with
    | error error => exact hc
    | ok taken =>
      have htakenKeeps : P taken := takePath_keeps htake hc htaken
      simp only
      cases taken.path path with
      | error error => exact htakenKeeps
      | ok found => exact ih htakenKeeps

end Context

end RankedRules
