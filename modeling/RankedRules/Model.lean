/-
Models: rules in the order of insertion, and their ranking.

The candidates for a key are ranked by priority, then by the specificity of their qualifiers,
higher ones first. Among equals the earlier rule comes first.

* `Model` — the rules;
* `Rule.rank` — how two rules are ranked; `.lt` means that the first is preferred;
* `Model.ranked` — a list of rules in rank order, by stable insertion;
* `Model.candidates?` — the ranked candidates for a key, if there are any;
* `Model.ranked_perm` — ranking neither adds nor drops a rule.
-/
import RankedRules.Rule.Basic

namespace RankedRules

/-- How two rules are ranked: `.lt` means that the first one is preferred. -/
def Rule.rank (a b : Rule) : Ordering :=
  (compareOfLessAndEq b.priority a.priority).then
    (compareOfLessAndEq b.specificity a.specificity)

/-- Rules in the order of insertion. -/
structure Model where
  rules : List Rule := []

namespace Model

/-- Puts a rule in front of a ranked list of rules that were inserted after it. -/
def place (rule : Rule) : List Rule → List Rule
  | [] => [rule]
  | first :: rest =>
    if first.rank rule == .lt then first :: place rule rest else rule :: first :: rest

/-- The rules in rank order. -/
def ranked (rules : List Rule) : List Rule :=
  rules.foldr place []

/-- The rules that are candidates for a key, best first, or nothing if there is none. -/
def candidates? (model : Model) (key? : Option String) : Option (List Rule) :=
  match model.rules.filter (Rule.isCandidate key?) with
  | [] => none
  | candidates => some (ranked candidates)

/-- The canonical texts of the candidates for a key, best first. -/
def candidateLines (model : Model) (key : String) : List String :=
  ((model.candidates? (some key)).getD []).map Rule.text

theorem place_perm (rule : Rule) (rules : List Rule) :
    (place rule rules).Perm (rule :: rules) := by
  induction rules with
  | nil => exact .refl _
  | cons first rest ih =>
    rw [place]
    split
    · exact (ih.cons first).trans (.swap rule first rest)
    · exact .refl _

/-- Ranking neither adds nor drops a rule. -/
theorem ranked_perm (rules : List Rule) : (ranked rules).Perm rules := by
  induction rules with
  | nil => exact .refl _
  | cons rule rest ih => exact (place_perm rule _).trans (ih.cons rule)

end Model

end RankedRules
