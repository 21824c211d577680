/-
Explicit priorities.

The text of a `rule` element may end with a priority, and the element may state one beside its text.
To state it is the same as to write it behind the text: the arrow of the rule stays where it is, and
if the text behind the arrow has no free semicolon and leaves nothing open, the first free semicolon
is the one in front of the priority. Whether the priority is a name, a number or neither does not
matter.

* `Rule.CanTakePriority` — a text behind which a priority can be written;
* `Rule.parse_append_priority` — the rule with the priority behind it;
* `XmlModel.StatesPriority` — the priority that an element states, as an attribute or an element;
* `XmlModel.explicit_as_written` — it gives the rule that the longer text gives.
-/
import RankedRules.Loading.XmlModel
import RankedRules.Proofs.Rule.Heading

namespace RankedRules

open Scan Text

/-- A blank in front of a priority does not matter. -/
theorem Priority.parse_space (text : List Char) :
    Priority.parse (' ' :: text) = Priority.parse text := by
  rw [Priority.parse, trim_cons rfl, Priority.parse]

/-- A blank behind an action does not matter. -/
theorem Action.parse_space (text : List Char) (className : Option String) :
    Action.parse (text ++ [' ']) className = Action.parse text className := by
  rw [Action.parse, trim_concat rfl, Action.parse]

namespace Rule

variable {text front behind priority : List Char} {rule : Rule}

/-- The text behind the arrow has no free semicolon and leaves no quote and no bracket open. -/
def CanTakePriority (text : List Char) : Prop :=
  ∃ front behind, cut? false ['=', '>'] text = some (front, '=' :: '>' :: behind) ∧
    cut? true [';'] behind = none ∧ (({} : State).after true behind).quote = none ∧
    (({} : State).after true behind).depth = 0

/-- A rule that is read has its arrow behind three bytes. -/
theorem three_le_of_parse {rest : List Char} (h : Rule.parse text = .ok rule)
    (hcut : cut? false ['=', '>'] text = some (front, rest)) : 3 ≤ byteSize front := by
  refine Nat.not_lt.1 fun hsize => ?_
  rw [Rule.parse, hcut] at h
  dsimp only at h
  rw [if_pos hsize] at h
  split at h <;> cases h

/-- Behind an action that is closed, the semicolon of a priority is the first free one. -/
theorem parseRight_append {action : Action} {p : Int} (h : Rule.parseRight behind = .ok (action, p))
    (hnone : cut? true [';'] behind = none) (hstate : ({} : State).after true behind = {})
    (priority : List Char) :
    Rule.parseRight (behind ++ (" ; ".toList ++ priority)) =
      .ok (action, Priority.parse priority) := by
  -- Nothing is open behind the action and the blank, so the semicolon that follows is free.
  have hpasses : Passes true [';'] {} (behind ++ [' ']) {} := by
    have hfree : NoFree true ';' {} behind := noFree_iff.2 hnone
    have hbehind := hfree.passes
    rw [hstate] at hbehind
    exact hbehind.append (PropertyList.passes_of_signs (by decide) 0)
  have hcut : cut? true [';'] (behind ++ [' '] ++ ';' :: ' ' :: priority) =
      some (behind ++ [' '], ';' :: ' ' :: priority) :=
    cut?_of_passes (by simp) hpasses rfl rfl
  have htext : behind ++ (" ; ".toList ++ priority) =
      behind ++ [' '] ++ ';' :: ' ' :: priority := by simp
  have haction : Action.parse behind none = .ok action := by
    rw [Rule.parseRight, hnone] at h
    obtain ⟨found, hfound, h⟩ := bind_eq_ok_iff.1 h
    cases h
    exact hfound
  rw [Rule.parseRight, htext, hcut]
  simp only [List.drop_succ_cons, List.drop_zero, Action.parse_space, haction,
    Priority.parse_space]
  rfl

/-- A rule with a priority written behind it is the rule with that priority. -/
theorem parse_append_priority (h : Rule.parse text = .ok rule) (htext : CanTakePriority text)
    (priority : List Char) : Rule.parse (text ++ (" ; ".toList ++ priority)) =
      .ok { rule with priority := Priority.parse priority } := by
  obtain ⟨front, behind, hcut, hnone, hquote, hdepth⟩ := htext
  have hsize := three_le_of_parse h hcut
  have hstate : ({} : State).after true behind = {} :=
    (State.IsProper.start.after behind).eq_start hquote hdepth
  -- The arrow is found in the text already, so it is the same one.
  have hlonger : cut? false ['=', '>'] (text ++ (" ; ".toList ++ priority)) =
      some (front, '=' :: '>' :: (behind ++ (" ; ".toList ++ priority))) :=
    cutFrom?_append_of_some hcut _
  rw [parse_of_cut hcut hsize] at h
  obtain ⟨q, hq, h⟩ := bind_eq_ok_iff.1 h
  obtain ⟨⟨action, p⟩, hright, rfl⟩ := map_eq_ok_iff.1 h
  rw [parse_of_cut hlonger hsize, hq, parseRight_append hright hnone hstate]
  rfl

end Rule

namespace XmlModel

open Xml (Node)

variable {node : Node} {priority : List Char} {rule : Rule}

/-- An element that is read as the text of a rule: there are no elements for a qualifier or a key,
and no action that can be read. -/
structure IsFlat (node : Node) : Prop where
  noQualifier : named ["qualifier", "q"] node = []
  noAction : action? node = none
  noKey : named ["key", "k"] node = []

/-- The priority that an element states: an attribute that is not blank, or without one the text of
the first element for it. -/
inductive StatesPriority (node : Node) : List Char → Prop
  | ofAttribute {value : String} (hvalue : node.attribute? "priority" = some value)
      (hblank : Text.isAllBlank value = false) : StatesPriority node value.toList
  | ofElement {child : Node} {others : List Node}
      (hblank : ∀ value ∈ node.attribute? "priority", Text.isAllBlank value = true)
      (hchild : named ["priority", "p"] node = child :: others) :
      StatesPriority node child.textContent

theorem priority?_of_states (h : StatesPriority node priority) :
    priority? node = some (Priority.parse priority) := by
  cases h with
  | @ofAttribute value hvalue hblank =>
    rw [priority?, hvalue, Option.filter_some, hblank]
    rfl
  | @ofElement child others hblank hchild =>
    have hnone : (node.attribute? "priority").filter (fun value => !Text.isAllBlank value) =
        none := by
      rw [Option.filter_eq_none_iff]
      intro value hvalue
      rw [hblank value hvalue]
      decide
    rw [priority?, hnone, hchild]
    rfl

theorem rule?_of_isFlat (h : IsFlat node) : rule? node = flatRule? node := by
  rw [rule?, h.noQualifier, h.noAction, h.noKey]
  rfl

/-- An element with the text of a rule that states a priority is the rule that its text is with the
priority written behind it. -/
theorem explicit_as_written (hflat : IsFlat node)
    (hparse : Rule.parse (Text.trim node.ownText) = .ok rule)
    (htext : Rule.CanTakePriority (Text.trim node.ownText))
    (hpriority : StatesPriority node priority) :
    ∃ found, rule? node = some found ∧
      Rule.parse (Text.trim node.ownText ++ (" ; ".toList ++ priority)) = .ok found ∧
      found = { rule with priority := Priority.parse priority } := by
  refine ⟨_, ?_, Rule.parse_append_priority hparse htext priority, rfl⟩
  rw [rule?_of_isFlat hflat, flatRule?, hparse, priority?_of_states hpriority]
  rfl

/-! ## An attribute, and an element beside a blank attribute -/

namespace Stated

/-- An arrow, a semicolon and a bracket in strings. -/
def text : List Char := "\n title = 'a => b; (' => label = 'x; y'\n".toList

/-- The rule of the text, with any priority. -/
def withPriority (n : Int) : Rule :=
  ⟨some (.compare "title" .equal (.string "a => b; (")), some (.assign "label" (.string "x; y")), n⟩

def byName : Node := .element ⟨none, "rule", [("priority", " very high ")], 0⟩ [.text text]

/-- The priority is too large, so it does not count. -/
def tooLarge : Node :=
  .element ⟨none, "rule", [("priority", " ")], 0⟩
    [.text text, .element ⟨none, "p", [], 0⟩ [.text "2147483648".toList]]

set_option maxRecDepth 4000 in
theorem parse_text : Rule.parse (Text.trim text) = .ok (withPriority Priority.normal) := rfl

theorem canTakePriority : Rule.CanTakePriority (Text.trim text) :=
  ⟨"title = 'a => b; (' ".toList, " label = 'x; y'".toList, rfl, rfl, rfl, rfl⟩

end Stated

set_option maxRecDepth 4000 in
theorem explicit_as_written_stated :
    (rule? Stated.byName = some (Stated.withPriority 200) ∧
      Rule.parse (Text.trim Stated.text ++ " ;  very high ".toList) =
        .ok (Stated.withPriority 200)) ∧
    (rule? Stated.tooLarge = some (Stated.withPriority 100) ∧
      Rule.parse (Text.trim Stated.text ++ " ; 2147483648".toList) =
        .ok (Stated.withPriority 100)) := by
  constructor
  · obtain ⟨_, hrule, hparse, rfl⟩ := @explicit_as_written Stated.byName " very high ".toList _
      ⟨rfl, rfl, rfl⟩ Stated.parse_text Stated.canTakePriority (.ofAttribute rfl rfl)
    exact ⟨hrule, hparse⟩
  · have hblank : ∀ value ∈ Stated.tooLarge.attribute? "priority",
        Text.isAllBlank value = true := by
      rintro value ⟨⟩
      rfl
    obtain ⟨_, hrule, hparse, rfl⟩ := @explicit_as_written Stated.tooLarge "2147483648".toList _
      ⟨rfl, rfl, rfl⟩ Stated.parse_text Stated.canTakePriority (.ofElement hblank rfl)
    exact ⟨hrule, hparse⟩

end XmlModel

end RankedRules
