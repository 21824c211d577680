/-
Rules in another order.

The candidates for a key are the rules for it, each as often as it was inserted, by falling
priority, then by falling specificity, then in the order of insertion. So the order of insertion
only matters among rules that tie: with their positions the candidates are determined by what they
are, and another order that keeps those of the same priority and specificity as they stand gives
positions that rank alike. Models that rank alike for every key answer every query alike.

* `Model.pairwise_ahead` — sorted rules at different positions are each ahead of all later ones;
* `Model.Rearranged` — rules in another order that keeps ties;
* `Model.ranked_filter_eq` — they are ranked alike;
* `Context.AnswersAlike` — two contexts answer every query alike;
* `Model.candidates_stable` — the order of the candidates, and what depends on that of the rules.
-/
import RankedRules.Proofs.Context.Writes
import RankedRules.Proofs.Inference.Locality
import RankedRules.Proofs.Ranking

namespace RankedRules

namespace Model

open Rule

/-! ## The order of the candidates -/

/-- Sorted rules at different positions are each ahead of all later ones. -/
theorem pairwise_ahead {places : List (Rule × Nat)} (h : places.Pairwise fun a b => a.2 ≠ b.2) :
    (places.insertionSort NotBehind).Pairwise Ahead := by
  have hsorted : (places.insertionSort NotBehind).Pairwise NotBehind :=
    List.pairwise_insertionSort NotBehind places
  have hdistinct : (places.insertionSort NotBehind).Pairwise fun a b => a.2 ≠ b.2 :=
    h.perm (List.perm_insertionSort NotBehind places).symm fun hne => hne.symm
  exact (hsorted.and hdistinct).imp fun hab => (ahead_or_ahead hab.2).resolve_right hab.1

/-- There is one way only to put rules at positions one ahead of the other. -/
theorem eq_of_pairwise_ahead {places others : List (Rule × Nat)} (hperm : places.Perm others)
    (h : places.Pairwise Ahead) (h' : others.Pairwise Ahead) : places = others :=
  hperm.eq_of_pairwise (fun _ _ _ _ hab hba => absurd hba hab.asymm) h h'

theorem zipIdx_ne (rules : List Rule) : rules.zipIdx.Pairwise fun a b => a.2 ≠ b.2 :=
  (zipIdx_increases rules).imp fun hlt => Nat.ne_of_lt hlt

/-- The candidates are the ranked rules for the key, unless there are none. -/
theorem candidates?_eq (model : Model) (key? : Option String) :
    model.candidates? key? =
      if ranked (model.rules.filter (isCandidate key?)) = [] then none
      else some (ranked (model.rules.filter (isCandidate key?))) := by
  rw [candidates?]
  cases hrules : model.rules.filter (isCandidate key?) with
  | nil => rfl
  | cons first rest =>
    have hne : ranked (first :: rest) ≠ [] := fun hnil =>
      List.cons_ne_nil first rest (hnil ▸ ranked_perm (first :: rest)).symm.eq_nil
    rw [if_neg hne]

/-- Without candidates no rule is for the key. -/
theorem candidates?_eq_none_iff (model : Model) (key? : Option String) :
    model.candidates? key? = none ↔ ∀ rule ∈ model.rules, rule.isCandidate key? = false := by
  have hnil : model.candidates? key? = none ↔ model.rules.filter (isCandidate key?) = [] := by
    rw [candidates?]
    cases model.rules.filter (isCandidate key?) <;> simp
  rw [hnil, List.filter_eq_nil_iff]
  simp

/-- The candidates with their positions in the model: exactly the rules for the key, each ahead of
all later ones. -/
theorem exists_places {model : Model} {key? : Option String} {rules : List Rule}
    (h : model.candidates? key? = some rules) :
    ∃ places : List (Rule × Nat), places.map Prod.fst = rules ∧
      places.Perm (model.rules.zipIdx.filter fun a => a.1.isCandidate key?) ∧
      places.Pairwise Ahead := by
  rw [candidates?_eq] at h
  split at h
  · cases h
  · refine ⟨_, (ranked_filter model.rules (isCandidate key?)).symm.trans (Option.some.inj h),
      List.perm_insertionSort NotBehind _, pairwise_ahead ?_⟩
    exact (zipIdx_ne model.rules).filter _

/-! ## Another order of the rules -/

/-- The other rules are the rules in another order, in which those of the same priority and
specificity stand as before. -/
def Rearranged (rules others : List Rule) : Prop :=
  ∃ places : List (Rule × Nat), places.map Prod.fst = others ∧ places.Perm rules.zipIdx ∧
    places.Pairwise TieInOrder

/-- Rules in another order that keeps ties are ranked alike, and so are some of them. -/
theorem ranked_filter_eq {rules others : List Rule} (h : Rearranged rules others)
    (isChosen : Rule → Bool) :
    ranked (others.filter isChosen) = ranked (rules.filter isChosen) := by
  obtain ⟨places, rfl, hperm, hties⟩ := h
  have hchosen : (places.filter fun a => isChosen a.1).Perm
      (rules.zipIdx.filter fun a => isChosen a.1) := hperm.filter _
  have hdistinct := (zipIdx_ne rules).filter fun a => isChosen a.1
  -- With the positions of the first order both sort to one list, even if some rules are equal.
  have hsorted : (places.filter fun a => isChosen a.1).insertionSort NotBehind =
      (rules.zipIdx.filter fun a => isChosen a.1).insertionSort NotBehind := by
    refine eq_of_pairwise_ahead ?_ (pairwise_ahead ?_) (pairwise_ahead hdistinct)
    · exact (List.perm_insertionSort NotBehind _).trans
        (hchosen.trans (List.perm_insertionSort NotBehind _).symm)
    · exact hdistinct.perm hchosen.symm fun hne => hne.symm
  rw [ranked_filter rules, ← hsorted, ← ranked_map _ (hties.filter _), List.filter_map]
  rfl

theorem Rearranged.candidates?_eq {rules others : List Rule} (h : Rearranged rules others)
    (key? : Option String) : candidates? ⟨others⟩ key? = candidates? ⟨rules⟩ key? := by
  rw [Model.candidates?_eq, Model.candidates?_eq, ranked_filter_eq h]

end Model

/-! ## Queries -/

namespace Context

/-- Two contexts answer every query alike, also while values are taken. -/
structure AnswersAlike (c d : Context) : Prop where
  value : ∀ key, d.value key = c.value key
  inferred : ∀ key, d.inferred key = c.inferred key
  allValues : ∀ key, d.allValues key = c.allValues key
  path : ∀ path, d.path path = c.path path
  taking : ∀ path valuePath values,
    (d.whileTaking path valuePath values).1 = (c.whileTaking path valuePath values).1 ∧
      (d.whileTaking path valuePath values).2.stored =
        (c.whileTaking path valuePath values).2.stored

variable {model other : Option Model}

/-- A write at a path does the same to what is stored in front of every model. -/
theorem takePath_beside_model (stored : Entries Value) (value : Value) (path : String) :
    (∃ error, ∀ model, takePath ⟨model, stored⟩ value path = .error error) ∨
      ∃ after, ∀ model, takePath ⟨model, stored⟩ value path = .ok ⟨model, after⟩ := by
  cases hsegments : KeyPath.segments path with
  | error error => exact .inl ⟨error, fun model => takePath_of_error hsegments _ value⟩
  | ok segments =>
    refine .inr ⟨((Value.object stored).assign segments value).members, fun model => ?_⟩
    exact takePath_eq (segments?_of_segments hsegments) ⟨model, stored⟩ value

/-- If two models give a path the same answer in front of all stored values, they also do while
values are taken. -/
theorem whileTaking_congr {path : String}
    (h : ∀ stored, Context.path ⟨other, stored⟩ path = Context.path ⟨model, stored⟩ path)
    (valuePath : String) (values : List Value) (stored : Entries Value) :
    (whileTaking ⟨other, stored⟩ path valuePath values).1 =
        (whileTaking ⟨model, stored⟩ path valuePath values).1 ∧
      (whileTaking ⟨other, stored⟩ path valuePath values).2.stored =
        (whileTaking ⟨model, stored⟩ path valuePath values).2.stored := by
  induction values generalizing stored with
  | nil => exact ⟨rfl, rfl⟩
  | cons value rest ih =>
    rw [whileTaking, whileTaking]
    rcases takePath_beside_model stored value valuePath with ⟨error, htaken⟩ | ⟨after, htaken⟩
    · rw [htaken, htaken]
      exact ⟨rfl, rfl⟩
    · simp only [htaken, h after]
      cases Context.path ⟨model, after⟩ path with
      | error error => exact ⟨rfl, rfl⟩
      | ok found =>
        obtain ⟨hresults, hstored⟩ := ih after
        exact ⟨congrArg (Except.map (found :: ·)) hresults, hstored⟩

/-- Models with the same candidates for every key give the same answers. -/
theorem answersAlike_of_candidates {model other : Model}
    (h : ∀ key, other.candidates? (some key) = model.candidates? (some key))
    (stored : Entries Value) :
    AnswersAlike ⟨some model, stored⟩ ⟨some other, stored⟩ := by
  have hagree : ∀ stored key,
      AgreeOnNeeds ⟨some model, stored⟩ ⟨some other, stored⟩ key := fun stored key =>
    ⟨fun _ _ => rfl, fun needed _ => congrArg (Option.getD · []) (h needed)⟩
  have hvalue : ∀ stored,
      Context.value ⟨some other, stored⟩ = Context.value ⟨some model, stored⟩ := fun stored =>
    funext fun key => (answers_eq_of_needs (hagree stored key)).1
  have hpath : ∀ stored path,
      Context.path ⟨some other, stored⟩ path = Context.path ⟨some model, stored⟩ path := by
    intro stored path
    rw [Context.path, Context.path, hvalue]
  exact {
    value := fun key => congrFun (hvalue stored) key
    inferred := fun key => (answers_eq_of_needs (hagree stored key)).2.1
    allValues := fun key => (answers_eq_of_needs (hagree stored key)).2.2
    path := hpath stored
    taking := fun path valuePath values =>
      whileTaking_congr (fun stored => hpath stored path) valuePath values stored }

end Context

namespace Model

open Rule

/-- There are no candidates for a key, or without a key, if and only if no rule is one. Otherwise
they are exactly the rules that are, each ahead of all later ones: priority falls, at the same
priority specificity does, and at the same of both the order of insertion is kept. Rules in another
order that keeps those that tie have the same candidates for every key, and answer every query
alike. -/
theorem candidates_stable (model : Model) :
    (∀ key?, (model.candidates? key? = none ↔
        ∀ rule ∈ model.rules, rule.isCandidate key? = false) ∧
      ∀ rules, model.candidates? key? = some rules →
        ∃ places : List (Rule × Nat), places.map Prod.fst = rules ∧
          places.Perm (model.rules.zipIdx.filter fun a => a.1.isCandidate key?) ∧
          places.Pairwise Ahead) ∧
    ∀ others, Rearranged model.rules others →
      (∀ key?, candidates? ⟨others⟩ key? = model.candidates? key?) ∧
      ∀ stored, Context.AnswersAlike ⟨some model, stored⟩ ⟨some ⟨others⟩, stored⟩ := by
  refine ⟨fun key? => ⟨model.candidates?_eq_none_iff key?, fun rules => exists_places⟩, ?_⟩
  intro others h
  have hcandidates := h.candidates?_eq
  exact ⟨hcandidates, Context.answersAlike_of_candidates fun key => hcandidates (some key)⟩

/-! ## Two rules that change places -/

namespace Swapped

/-- A rule with a constant condition. -/
def constant : Rule := ⟨some (.constant true), some (.assign "a" (.bool true)), 100⟩

/-- A rule of the same priority with a condition. -/
def reading : Rule := ⟨some (.compare "b" .equal .null), some (.reference "a" "b"), 100⟩

/-- A rule for another key. -/
def other : Rule := ⟨some (.compound .any [.constant true]), some (.assign "b" .null), 100⟩

/-- A rule that ties with the one with a condition. -/
def negated : Rule := ⟨some (.not (.constant true)), some (.assign "a" (.bool false)), 100⟩

theorem rearranged :
    Rearranged [constant, reading, other, negated] [reading, constant, other, negated] := by
  refine ⟨[(reading, 1), (constant, 0), (other, 2), (negated, 3)], rfl, .swap _ _ _, ?_⟩
  decide

end Swapped

open Swapped

theorem candidates_stable_swapped :
    candidates? ⟨[constant, reading, other, negated]⟩ (some "a") =
        some [reading, negated, constant] ∧
      (∃ places : List (Rule × Nat), places.map Prod.fst = [reading, negated, constant] ∧
        places.Perm [(constant, 0), (reading, 1), (negated, 3)] ∧ places.Pairwise Ahead) ∧
      Rearranged [constant, reading, other, negated] [reading, constant, other, negated] ∧
      Context.AnswersAlike ⟨some ⟨[constant, reading, other, negated]⟩, []⟩
        ⟨some ⟨[reading, constant, other, negated]⟩, []⟩ := by
  obtain ⟨hranked, horder⟩ := candidates_stable ⟨[constant, reading, other, negated]⟩
  have hcandidates : candidates? ⟨[constant, reading, other, negated]⟩ (some "a") =
      some [reading, negated, constant] := rfl
  obtain ⟨-, halike⟩ := horder _ rearranged
  exact ⟨hcandidates, (hranked (some "a")).2 _ hcandidates, rearranged, halike []⟩

end Model

end RankedRules
