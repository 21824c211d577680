/-
The order of ranked rules.

Ranking inserts the rules one by one, the last inserted first, into a list that is ranked already.
To say what comes out of it each rule is taken with its position. Positions break all ties, so the
ranked rules stand in a strict order, and a rule is preceded by every rule that is ahead of it.

* `Rule.Ahead` — a higher priority, or else a higher specificity, or else an earlier position;
* `Rule.TieInOrder` — rules of the same priority and specificity stand in the order of positions;
* `Model.place_map`, `Model.ranked_map` — then ranking is sorting by the order of all rules;
* `Model.candidatesAt` — the ranked rules for a key with their positions;
* `Model.candidates_eq_map` — without their positions they are the candidates;
* `Model.mem_of_ahead` — what is ahead of a ranked rule stands in front of it.
-/
import RankedRules.Model
import Mathlib.Data.List.Sort

namespace RankedRules

/-- A rule at a position is ahead of another one: it has a higher priority, or the same and a
higher specificity, or both the same and an earlier position. -/
def Rule.Ahead (a b : Rule × Nat) : Prop :=
  b.1.priority < a.1.priority ∨
    a.1.priority = b.1.priority ∧
      (b.1.specificity < a.1.specificity ∨
        a.1.specificity = b.1.specificity ∧ a.2 < b.2)

/-- Rules at positions that tie, having the same priority and specificity, stand in the order of
their positions. -/
def Rule.TieInOrder (a b : Rule × Nat) : Prop :=
  a.1.priority = b.1.priority → a.1.specificity = b.1.specificity → a.2 < b.2

instance : DecidableRel Rule.TieInOrder := fun a b => by
  unfold Rule.TieInOrder
  infer_instance

instance : DecidableRel Rule.Ahead := fun a b => by
  unfold Rule.Ahead
  infer_instance

namespace Rule

theorem Ahead.asymm {a b : Rule × Nat} (h : Ahead a b) : ¬Ahead b a := by
  unfold Ahead at *
  omega

theorem ahead_or_ahead {a b : Rule × Nat} (h : a.2 ≠ b.2) : Ahead a b ∨ Ahead b a := by
  unfold Ahead
  omega

/-- Preference in the ranking is a strictly higher priority or, at the same, specificity. -/
theorem rank_eq_lt_iff (a b : Rule) :
    a.rank b = .lt ↔
      b.priority < a.priority ∨ a.priority = b.priority ∧ b.specificity < a.specificity := by
  unfold Rule.rank compareOfLessAndEq
  split_ifs with hlt heq <;> simp [Ordering.then] <;> omega

end Rule

namespace Model

open Rule

/-- The order by which ranking sorts: the second rule is not ahead of the first. -/
def NotBehind (a b : Rule × Nat) : Prop := ¬Ahead b a

instance : DecidableRel NotBehind := fun a b => by
  unfold NotBehind
  infer_instance

instance : Std.Total NotBehind where
  total a b := by
    by_cases h : Ahead a b
    · exact .inl h.asymm
    · exact .inr h

instance : IsTrans (Rule × Nat) NotBehind where
  trans a b c hab hbc := by
    unfold NotBehind Ahead at *
    omega

/-- A rule is put where sorting puts it, if it stands in front of all ranked ones that it ties
with. -/
theorem place_map (a : Rule × Nat) (ranked : List (Rule × Nat)) (h : ∀ b ∈ ranked, TieInOrder a b) :
    place a.1 (ranked.map Prod.fst) = (ranked.orderedInsert NotBehind a).map Prod.fst := by
  induction ranked with
  | nil => rfl
  | cons b rest ih =>
    have htie : TieInOrder a b := h b List.mem_cons_self
    have hrank : b.1.rank a.1 = .lt ↔ ¬NotBehind a b := by
      rw [rank_eq_lt_iff]
      unfold TieInOrder at htie
      unfold NotBehind Ahead
      omega
    rw [List.map_cons, place, List.orderedInsert]
    by_cases hbehind : NotBehind a b
    · have hne : b.1.rank a.1 ≠ .lt := fun heq => hrank.1 heq hbehind
      rw [if_pos hbehind, if_neg (by simpa using hne)]
      rfl
    · have heq : b.1.rank a.1 = .lt := hrank.2 hbehind
      rw [if_neg hbehind, if_pos (by simpa using heq)]
      rw [List.map_cons, ih fun c hc => h c (List.mem_cons_of_mem b hc)]

/-- Ranking rules is sorting them with their positions, whatever these are, if they increase among
the rules that tie. -/
theorem ranked_map (rules : List (Rule × Nat)) (h : rules.Pairwise TieInOrder) :
    ranked (rules.map Prod.fst) = (rules.insertionSort NotBehind).map Prod.fst := by
  induction rules with
  | nil => rfl
  | cons a rest ih =>
    obtain ⟨hfirst, hrest⟩ := List.pairwise_cons.1 h
    have hsorted : ∀ b ∈ rest.insertionSort NotBehind, TieInOrder a b := fun b hb =>
      hfirst b ((List.mem_insertionSort NotBehind).1 hb)
    rw [List.map_cons, ranked, List.foldr_cons, ← ranked, ih hrest, place_map a _ hsorted]
    rfl

theorem zipIdx_increases (rules : List Rule) : rules.zipIdx.Pairwise fun a b => a.2 < b.2 := by
  have hpositions : (rules.zipIdx.map Prod.snd).Pairwise (· < ·) := by
    rw [List.zipIdx_map_snd]
    exact List.pairwise_lt_range'
  exact List.pairwise_map.1 hpositions

/-- Some of the rules are ranked as they are sorted with their positions among all rules. -/
theorem ranked_filter (rules : List Rule) (isChosen : Rule → Bool) :
    ranked (rules.filter isChosen) =
      ((rules.zipIdx.filter fun a => isChosen a.1).insertionSort NotBehind).map Prod.fst := by
  have hties : (rules.zipIdx.filter fun a => isChosen a.1).Pairwise TieInOrder :=
    ((zipIdx_increases rules).imp fun hlt _ _ => hlt).filter _
  have hfilter := List.filter_map (p := isChosen) (f := Prod.fst) (l := rules.zipIdx)
  rw [List.zipIdx_map_fst] at hfilter
  rw [hfilter, ← ranked_map _ hties]
  rfl

/-- The ranked rules for a key, each with its position in the model. -/
def candidatesAt (model : Model) (key : String) : List (Rule × Nat) :=
  (model.rules.zipIdx.filter fun a => a.1.targets key).insertionSort NotBehind

theorem mem_candidatesAt {model : Model} {key : String} {rule : Rule} {i : Nat} :
    (rule, i) ∈ model.candidatesAt key ↔
      model.rules[i]? = some rule ∧ rule.targets key = true := by
  rw [candidatesAt, List.mem_insertionSort, List.mem_filter, List.mem_zipIdx_iff_getElem?]

/-- Without their positions these are the candidates for the key. -/
theorem candidates_eq_map (model : Model) (key : String) :
    (model.candidates? (some key)).getD [] = (model.candidatesAt key).map Prod.fst := by
  have hranked : ranked (model.rules.filter (isCandidate (some key))) =
      (model.candidatesAt key).map Prod.fst :=
    ranked_filter model.rules (isCandidate (some key))
  rw [← hranked, candidates?]
  cases model.rules.filter (isCandidate (some key)) <;> rfl

/-- Behind a ranked rule nothing is ahead of it. -/
theorem not_ahead_of_split {model : Model} {key : String} {front back : List (Rule × Nat)}
    {a : Rule × Nat} (h : model.candidatesAt key = front ++ a :: back) :
    ∀ b ∈ back, ¬Ahead b a := by
  have hsorted : (model.candidatesAt key).Pairwise NotBehind :=
    List.pairwise_insertionSort NotBehind _
  rw [h] at hsorted
  have hback := (List.pairwise_append.1 hsorted).2.1
  exact (List.pairwise_cons.1 hback).1

/-- What is ahead of a ranked rule stands in front of it. -/
theorem mem_of_ahead {model : Model} {key : String} {front back : List (Rule × Nat)}
    {a b : Rule × Nat} (h : model.candidatesAt key = front ++ a :: back)
    (hb : b ∈ model.candidatesAt key) (hahead : Ahead b a) : b ∈ front := by
  rw [h] at hb
  rcases List.mem_append.1 hb with hfront | hb
  · exact hfront
  rcases List.mem_cons.1 hb with rfl | hback
  · exact absurd hahead hahead.asymm
  · exact absurd hahead (not_ahead_of_split h b hback)

end Model

end RankedRules
