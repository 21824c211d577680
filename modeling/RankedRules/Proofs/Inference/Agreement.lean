/-
All values of a key begin with its inferred value.

Inference stops at the first rule that applies, while the other query goes on to collect the values
of all rules that apply. Up to the first rule that applies both do the same. So the first of all
values is the inferred one, with null for nothing, and an error of inference is an error of the
collection; only errors behind the first value make a difference.

* `Context.Agree` — which value of the first rule and values of all rules go together;
* `Context.fire_agree` — those of a list of rules do;
* `Context.inferred_agrees` — so do the two queries of a key.
-/
import RankedRules.Proofs.Inference.Present
import RankedRules.Proofs.Inference.Reads

namespace RankedRules.Context

/-- The value of the first rule that applies goes together with the values of all: they end in the
same error, or only the collection does, or no rule applies, or the collection begins with the
value, null standing for nothing. -/
inductive Agree : Except EvalError (Option Value) → Except EvalError (List Value) → Prop
  | sameError (error : EvalError) : Agree (.error error) (.error error)
  | laterError (value : Option Value) (error : EvalError) : Agree (.ok value) (.error error)
  | nothing : Agree (.ok none) (.ok [])
  | first (value : Value) (rest : List Value) : Agree (.ok value.present) (.ok (value :: rest))

variable {look : Lookup (Except EvalError)}

/-- What a rule gives is what stands for it among all values, without null. -/
theorem present_getD_of_fire {rule : Rule} {value : Option Value}
    (h : rule.fire look = .ok value) : (value.getD .null).present = value := by
  cases value with
  | none => rfl
  | some v =>
    have hnull : v.isNull = false := Rule.fire_not_null h
    exact Value.present_eq_some_iff.2 ⟨rfl, hnull⟩

/-- A rule that applies in front of others: its own value and what comes of the others. -/
theorem fire_agree_of_holds {rule : Rule} (rest : List Rule) (h : rule.holds look = .ok true) :
    Agree (fireFirst look (rule :: rest)) (fireAll look (rule :: rest)) := by
  have hfirst : fireFirst look (rule :: rest) = rule.fire look := by
    rw [fireFirst, h]
    rfl
  have hall : fireAll look (rule :: rest) =
      rule.fire look >>= fun value =>
        fireAll look rest >>= fun values => .ok (value.getD .null :: values) := by
    rw [fireAll, h]
    rfl
  rw [hfirst, hall]
  cases hfire : rule.fire look with
  | error error => exact .sameError error
  | ok value =>
    cases hrest : fireAll look rest with
    | error error => exact .laterError value error
    | ok values =>
      have hagree := Agree.first (value.getD .null) values
      rw [present_getD_of_fire hfire] at hagree
      exact hagree

/-- The first rule that applies and all rules that apply give values that go together. -/
theorem fire_agree (look : Lookup (Except EvalError)) (rules : List Rule) :
    Agree (fireFirst look rules) (fireAll look rules) := by
  induction rules with
  | nil => exact .nothing
  | cons rule rest ih =>
    cases hholds : rule.holds look with
    | error error =>
      rw [fireFirst, fireAll, hholds]
      exact .sameError error
    | ok holds =>
      cases holds with
      | true => exact fire_agree_of_holds rest hholds
      | false =>
        rw [fireFirst, fireAll, hholds]
        exact ih

/-- Inference and the collection of all values fare alike: either both have no rule to ask, or they
give what goes together. -/
theorem through_agree (c : Context) (look : Lookup (Except EvalError)) (active : List String)
    (key : String) :
    (c.inferThrough look active key = .ok none ∧ c.allThrough look active key = .ok none) ∨
      ∃ values, Agree (c.inferThrough look active key) values ∧
        c.allThrough look active key = values.map some := by
  rw [inferThrough, allThrough]
  cases c.candidatesWithin active key with
  | error error => exact .inr ⟨.error error, .sameError error, rfl⟩
  | ok candidates =>
    cases candidates with
    | none => exact .inl ⟨rfl, rfl⟩
    | some rules =>
      refine .inr ⟨fireAll look rules, fire_agree look rules, ?_⟩
      show (fireAll look rules >>= fun values => .ok (some values)) = _
      cases fireAll look rules <;> rfl

/-- If there are no values of a key, nothing is inferred for it. If there are some, the first one
is inferred, and nothing in place of null. An error of inference is one of the collection. -/
theorem inferred_agrees (c : Context) (key : String) :
    ((c.allValues key = .ok none ∨ c.allValues key = .ok (some [])) → c.inferred key = .ok none) ∧
      (∀ value rest, c.allValues key = .ok (some (value :: rest)) →
        c.inferred key = .ok (if value.isNull then none else some value)) ∧
      ∀ error, c.inferred key = .error error → c.allValues key = .error error := by
  have hthrough := c.through_agree (c.reader [key]) [] key
  rw [← inferred, ← allValues] at hthrough
  rcases hthrough with ⟨hinferred, hall⟩ | ⟨values, hagree, hall⟩
  · rw [hinferred, hall]
    simp
  · rw [hall]
    generalize c.inferred key = result at hagree ⊢
    cases hagree with
    | sameError error => simp [Except.map]
    | laterError value error => simp [Except.map]
    | nothing => simp [Except.map]
    | first value rest =>
      refine ⟨by simp [Except.map], ?_, by simp⟩
      intro value' rest' h
      obtain ⟨rfl, rfl⟩ : value = value' ∧ rest = rest' := by
        simpa [Except.map] using h
      rfl

/-- The best rule that applies assigns null, a nested rule behind it assigns a value. -/
def silenced : Context where
  model := some
    ⟨[⟨some (.constant true),
        some (.rule ⟨none, some (.assign "color" (.string "green")), 0⟩), 50⟩,
      ⟨some (.compare "page" .equal (.string "Main")), some (.assign "color" .null), 100⟩,
      ⟨some (.constant false), some (.reference "color" "color"), 200⟩]⟩
  stored := [("page", .string "Main")]

theorem inferred_agrees_silenced :
    silenced.allValues "color" = .ok (some [.null, .string "green"]) ∧
      silenced.inferred "color" = .ok none := by
  have hall : silenced.allValues "color" = .ok (some [.null, .string "green"]) := rfl
  exact ⟨hall, (inferred_agrees silenced "color").2.1 .null _ hall⟩

end RankedRules.Context
