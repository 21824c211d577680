/-
Equal rules do the same.

Equality is decided on priorities, actions and the canonical texts of conditions, with constants
compared as values: `1` is not `1.0`, but `0.0` is `-0.0`. Equal actions are for the same keys and
give equal values, by induction on the actions. Conditions with equal texts are the same, so equal
rules apply in the same contexts and are ranked alike.

* `SameResult` — equal values, or the same error;
* `Action.fire_same`, `Action.targets_same` — equal actions give equal results, for the same keys;
* `Rule.eq_of_same` — the parts of equal rules that have been read;
* `Rule.same_sound` — equal rules that have been read are indistinguishable.
-/
import RankedRules.Context.Basic
import RankedRules.Proofs.Qualifier.Canonical
import RankedRules.Proofs.Rule.ReadBack

namespace RankedRules

/-! ## Results -/

/-- Both give equal values or nothing, or both end in the same error. -/
inductive SameResult : Except EvalError (Option Value) → Except EvalError (Option Value) → Prop
  | ok {v w : Option Value} (h : (v == w) = true) : SameResult (.ok v) (.ok w)
  | error (error : EvalError) : SameResult (.error error) (.error error)

theorem Value.present_same {v w : Value} (h : v.same w = true) :
    (v.present == w.present) = true := by
  have hnull : v.isNull = w.isNull := by
    cases v <;> cases w <;> first | rfl | cases h
  rw [present, present, hnull]
  split
  · rfl
  · exact h

theorem SameResult.refl (result : Except EvalError (Option Value)) : SameResult result result := by
  cases result with
  | error error => exact .error error
  | ok v =>
    cases v with
    | none => exact .ok rfl
    | some v => exact .ok (show v.same v = true from v.same_refl)

/-! ## Actions -/

section Firing

variable (look : Lookup (Except EvalError))

mutual

/-- Equal actions give equal results. -/
theorem Action.fire_same (a b : Action) (h : a.same b = true) :
    SameResult (a.fire look) (b.fire look) := by
  match a, b with
  | .assign key v, .assign key' w =>
    rw [Action.same, Bool.and_eq_true] at h
    exact .ok (Value.present_same h.2)
  | .reference key path, .reference key' path' =>
    rw [Action.same, Bool.and_eq_true, beq_iff_eq, beq_iff_eq] at h
    obtain ⟨rfl, rfl⟩ := h
    exact .refl _
  | .compound members, .compound members' =>
    rw [Action.same] at h
    exact Action.fireAll_same members members' none none rfl h
  | .rule r, .rule r' =>
    rw [Action.same] at h
    exact Rule.fire_same r r' h

/-- Several actions give equal results one by one, so the last ones do. -/
theorem Action.fireAll_same (as bs : List Action) (v w : Option Value) (hlast : (v == w) = true)
    (h : Action.sameAll as bs = true) :
    SameResult (Action.fireAll look v as) (Action.fireAll look w bs) := by
  match as, bs with
  | [], [] => exact .ok hlast
  | a :: as, b :: bs =>
    rw [Action.sameAll, Bool.and_eq_true] at h
    have hfirst := Action.fire_same a b h.1
    rw [Action.fireAll, Action.fireAll]
    generalize a.fire look = result at hfirst
    generalize b.fire look = result' at hfirst
    cases hfirst with
    | error error => exact .error error
    | ok hvalue => exact Action.fireAll_same as bs _ _ hvalue h.2

/-- Equal rules give equal results. -/
theorem Rule.fire_same (r r' : Rule) (h : r.same r' = true) :
    SameResult (r.fire look) (r'.fire look) := by
  match r, r' with
  | ⟨_, none, _⟩, ⟨_, none, _⟩ => exact .ok rfl
  | ⟨_, some a, _⟩, ⟨_, some b, _⟩ =>
    rw [Rule.same, Bool.and_eq_true, Bool.and_eq_true] at h
    exact Action.fire_same a b h.1.2

end

end Firing

section Targets

variable (key : String)

mutual

/-- Equal actions are for the same keys. -/
theorem Action.targets_same (a b : Action) (h : a.same b = true) :
    a.targets key = b.targets key := by
  match a, b with
  | .assign target v, .assign target' w =>
    rw [Action.same, Bool.and_eq_true, beq_iff_eq] at h
    rw [Action.targets, Action.targets, h.1]
  | .reference target path, .reference target' path' =>
    rw [Action.same, Bool.and_eq_true, beq_iff_eq] at h
    rw [Action.targets, Action.targets, h.1]
  | .compound members, .compound members' =>
    rw [Action.same] at h
    exact Action.anyTargets_same members members' h
  | .rule r, .rule r' =>
    rw [Action.same] at h
    exact Rule.targets_same r r' h

theorem Action.anyTargets_same (as bs : List Action) (h : Action.sameAll as bs = true) :
    Action.anyTargets key as = Action.anyTargets key bs := by
  match as, bs with
  | [], [] => rfl
  | a :: as, b :: bs =>
    rw [Action.sameAll, Bool.and_eq_true] at h
    rw [Action.anyTargets, Action.anyTargets, Action.targets_same a b h.1,
      Action.anyTargets_same as bs h.2]

/-- Equal rules are for the same keys. -/
theorem Rule.targets_same (r r' : Rule) (h : r.same r' = true) :
    r.targets key = r'.targets key := by
  match r, r' with
  | ⟨_, none, _⟩, ⟨_, none, _⟩ => rfl
  | ⟨_, some a, _⟩, ⟨_, some b, _⟩ =>
    rw [Rule.same, Bool.and_eq_true, Bool.and_eq_true] at h
    rw [Rule.targets, Rule.targets, Action.targets_same a b h.1.2]

end

end Targets

/-! ## Rules -/

namespace Rule

variable {text text' : List Char} {r r' : Rule}

/-- Equal rules that have been read differ in their actions at most. -/
theorem eq_of_same (h : parse text = .ok r) (h' : parse text' = .ok r') (hsame : r.same r' = true) :
    ∃ q a b p, r = ⟨some q, some a, p⟩ ∧ r' = ⟨some q, some b, p⟩ ∧ a.same b = true := by
  obtain ⟨q, a, p, rfl, hq, -, -⟩ := parse_ok h
  obtain ⟨q', b, p', rfl, hq', -, -⟩ := parse_ok h'
  obtain ⟨rfl, haction, htext⟩ := (same_iff q' q b a p' p).1 hsame
  obtain rfl : q = q' := Qualifier.eq_of_text_eq hq hq' htext
  exact ⟨q, a, b, p, rfl, rfl, haction⟩

/-- Rules of one priority and one condition are ranked equal. -/
theorem rank_eq_of_specificity (hpriority : r.priority = r'.priority)
    (hspecificity : r.specificity = r'.specificity) : r.rank r' = .eq := by
  simp [rank, compareOfLessAndEq, hpriority, hspecificity]

/-- Equality of rules is sound: equal rules that have been read have the same specificity, are
candidates for the same keys and are ranked equal, and in every context, whatever is in progress,
their conditions have the same outcome and they give equal results. And the conditions that can be
read are the same if they are written with the same text. -/
theorem same_sound :
    (∀ (text text' : List Char) (r r' : Rule), parse text = .ok r → parse text' = .ok r' →
      (r == r') = true →
        r.specificity = r'.specificity ∧
        (∀ key?, r.isCandidate key? = r'.isCandidate key?) ∧
        r.rank r' = .eq ∧ r'.rank r = .eq ∧
        ∃ q q', r.qualifier = some q ∧ r'.qualifier = some q' ∧
          ∀ (c : Context) (active : List String),
            q.evaluate (c.reader active) = q'.evaluate (c.reader active) ∧
            SameResult (r.fire (c.reader active)) (r'.fire (c.reader active))) ∧
    ∀ (cs ds : List Char) (p q : Qualifier), Qualifier.parse cs = .ok p →
      Qualifier.parse ds = .ok q → p.text = q.text → p = q := by
  constructor
  · intro text text' r r' h h' hequal
    have hsame : r.same r' = true := hequal
    obtain ⟨q, a, b, p, rfl, rfl, -⟩ := eq_of_same h h' hsame
    refine ⟨rfl, ?_, rank_eq_of_specificity rfl rfl, rank_eq_of_specificity rfl rfl, q, q, rfl, rfl,
      ?_⟩
    · intro key?
      cases key? with
      | none => rfl
      | some key => exact targets_same key _ _ hsame
    · intro c active
      exact ⟨rfl, fire_same (c.reader active) _ _ hsame⟩
  · intro cs ds p q hp hq htext
    exact Qualifier.eq_of_text_eq (Qualifier.wellFormed_of_parse hp)
      (Qualifier.wellFormed_of_parse hq) htext

/-- One condition in two spellings, and two constants that are equal as numbers. -/
theorem same_sound_of_zeros : ∃ r r' : Rule,
    parse "a > 1000000000000000000000 and b = c => x = 0.0".toList = .ok r ∧
      parse "(a > 1000000000000000000000.0) AND (b == c) => x = -0.0 ; normal".toList = .ok r' ∧
      r.rank r' = .eq ∧ ∀ c : Context, SameResult (r.fire c.value) (r'.fire c.value) := by
  have hequal : ((parse "a > 1000000000000000000000 and b = c => x = 0.0".toList).toOption.bind
      fun r => (parse "(a > 1000000000000000000000.0) AND (b == c) => x = -0.0 ; normal".toList
        ).toOption.map fun r' => r == r') = some true := by decide +kernel
  cases h : parse "a > 1000000000000000000000 and b = c => x = 0.0".toList with
  | error fault =>
    rw [h] at hequal
    cases hequal
  | ok r =>
    cases h' : parse "(a > 1000000000000000000000.0) AND (b == c) => x = -0.0 ; normal".toList with
    | error fault =>
      rw [h, h'] at hequal
      cases hequal
    | ok r' =>
      rw [h, h'] at hequal
      have hsame : (r == r') = true := Option.some.inj hequal
      obtain ⟨-, -, hrank, -, q, q', -, -, hfire⟩ := same_sound.1 _ _ r r' h h' hsame
      exact ⟨r, r', rfl, rfl, hrank, fun c => (hfire c []).2⟩

end Rule

end RankedRules
