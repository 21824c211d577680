/-
Several qualifiers of one rule.

A rule in an XML document holds its conditions in elements, one text in each. All of them must hold,
so the rule has the condition that is written by putting the texts in parentheses, with `AND`
between them. If one of the texts is no condition, the rule has none.

* `XmlModel.forall₂_of_qualifiers?`, `XmlModel.isSome_qualifiers?_iff` — the conditions of some
  elements, and when there are any;
* `XmlModel.qualifier?_eq_combine` — the condition of the rule;
* `XmlModel.qualifier?_conjunction` — the same by one text.
-/
import RankedRules.Loading.XmlModel
import RankedRules.Proofs.Qualifier.Enclosed
import RankedRules.Proofs.Rule.Legible

namespace RankedRules.XmlModel

open Xml (Node)

variable {nodes : List Node} {members : List Qualifier}

/-- The conditions are read one by one. -/
theorem forall₂_of_qualifiers? (h : qualifiers? nodes = some members) :
    List.Forall₂ (fun node q => Qualifier.parseText node.textContent = .ok q) nodes members := by
  induction nodes generalizing members with
  | nil =>
    cases h
    exact .nil
  | cons node rest ih =>
    rw [qualifiers?] at h
    split at h
    · rename_i q hq
      obtain ⟨others, hothers, rfl⟩ := Option.map_eq_some_iff.1 h
      exact .cons hq (ih hothers)
    · cases h

theorem isSome_qualifiers?_iff : (qualifiers? nodes).isSome = true ↔
    ∀ node ∈ nodes, ∃ q, Qualifier.parseText node.textContent = .ok q := by
  induction nodes with
  | nil => exact iff_of_true rfl (by simp)
  | cons node rest ih =>
    rw [qualifiers?, List.forall_mem_cons, ← ih]
    cases Qualifier.parseText node.textContent <;> simp

/-- At least one condition makes that of the rule. -/
theorem qualifier?_eq_combine (h : qualifiers? nodes = some members) (hne : nodes ≠ []) :
    qualifier? nodes = some (Qualifier.combine .all members) := by
  have hmembers : members ≠ [] := by
    rintro rfl
    exact hne (List.forall₂_nil_right_iff.1 (forall₂_of_qualifiers? h))
  rw [qualifier?, h]
  match members, hmembers with
  | [_], _ => rfl
  | _ :: _ :: _, _ => rfl

/-- Elements with texts of conditions make the condition that is written by the texts in parentheses
with `AND` between them, and elements of which one has another text make none. -/
theorem qualifier?_conjunction (hne : nodes ≠ []) :
    ((∀ node ∈ nodes, ∃ q, Qualifier.parseText node.textContent = .ok q) →
      ∃ q, qualifier? nodes = some q ∧
        Qualifier.parse (Qualifier.enclosedTexts .all (nodes.map Node.textContent)) = .ok q) ∧
    ((∃ node ∈ nodes, ∀ q, Qualifier.parseText node.textContent ≠ .ok q) →
      qualifier? nodes = none) := by
  constructor
  · intro hall
    obtain ⟨members, hmembers⟩ := Option.isSome_iff_exists.1 (isSome_qualifiers?_iff.2 hall)
    refine ⟨_, qualifier?_eq_combine hmembers hne, ?_⟩
    refine Qualifier.parse_enclosedTexts ?_ (by simpa using hne) .all
    rw [List.forall₂_map_left_iff]
    exact (forall₂_of_qualifiers? hmembers).imp fun _ _ hq => Qualifier.parseChars_ok hq
  · rintro ⟨node, hnode, hnot⟩
    have hnone : qualifiers? nodes = none := by
      rw [← Option.not_isSome_iff_eq_none, isSome_qualifiers?_iff]
      intro hall
      obtain ⟨q, hq⟩ := hall node hnode
      exact hnot q hq
    rw [qualifier?, hnone]

set_option maxRecDepth 4000 in
/-- A parenthesis in a string and a key `AND` at the end of a text, and a text that has no end. -/
theorem qualifier?_conjunction_words :
    (∃ q, qualifier? [.element ⟨none, "qualifier", [], 0⟩ [.text "a = 1 or b = ')'".toList],
        .element ⟨none, "q", [], 0⟩ [.text " not c = AND\n".toList]] = some q ∧
      Qualifier.parse "(a = 1 or b = ')') AND ( not c = AND\n)".toList = .ok q) ∧
    qualifier? [.element ⟨none, "q", [], 0⟩ [.text "a = 1".toList],
      .element ⟨none, "q", [], 0⟩ [.text "b = 2 AND".toList]] = none := by
  constructor
  · refine (qualifier?_conjunction (by simp)).1 ?_
    simp only [List.forall_mem_cons]
    exact ⟨⟨_, rfl⟩, ⟨_, rfl⟩, by simp⟩
  · refine (qualifier?_conjunction (by simp)).2 ⟨_, List.mem_cons_of_mem _ List.mem_cons_self, ?_⟩
    have hread : Qualifier.parseText "b = 2 AND".toList =
        .error (.qualifier 9 .expectedKeyPath) := rfl
    rintro q hq
    exact nomatch hread.symm.trans hq

end RankedRules.XmlModel
