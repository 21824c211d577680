/-
The opening parentheses of an action.

What is read has no more parentheses than its text, and a class name in front of an assignment has
at least the one that it begins with. So an assignment whose key begins with a parenthesis is never
read back: the key would be taken for a class name, and what is read would have too few parentheses.

* `RightSide.openings_of_parse` — a literal has no more parentheses than the right side that it is
  read from;
* `Action.openings_lt_of_cast` — an action has less than its text, if that begins with a class name;
* `Action.openings_eq_of_same` — equal actions have equally many.
-/
import RankedRules.Proofs.PropertyList.Openings
import RankedRules.Proofs.Rule.Assignment

namespace RankedRules

open Scan Text

namespace RightSide

theorem openings_unquote_le (quote : Char) (inner : List Char) :
    openings (unquote quote inner) ≤ openings inner := by
  rw [unquote]
  split
  · exact openings_le_of_sublist (List.dropLast_sublist _)
  · exact Nat.le_refl _

theorem openings_of_word {text : String} {v : Value} (h : word text = .ok (.literal v)) :
    v.openings = 0 := by
  by_cases hname : text ∈ constantNames
  · simp only [constantNames, List.mem_cons, List.not_mem_nil, or_false] at hname
    rcases hname with rfl | rfl | rfl | rfl | rfl | rfl
    all_goals
      cases h
      rfl
  · exact absurd h (word_ne_literal hname v)

/-- A literal that is read has no more parentheses than the right side. -/
theorem openings_of_parse {text : List Char} {v : Value} (h : parse text = .ok (.literal v)) :
    v.openings ≤ openings text := by
  have hsub := openings_le_of_sublist (trim_sublist text)
  rw [parse] at h
  split at h
  · cases h
    exact Nat.zero_le _
  · rename_i c rest htrim
    rw [htrim] at hsub
    split at h
    · cases h
      have hle := openings_unquote_le c rest
      rw [openings_cons] at hsub
      rw [Value.openings, String.toList_ofList]
      omega
    · split at h
      · rw [number] at h
        split at h
        · cases h
          exact Nat.zero_le _
        · cases h
      · split at h
        · rw [propertyList] at h
          split at h
          · rename_i hv
            cases h
            exact Nat.le_trans (PropertyList.openings_of_parse hv) hsub
          · cases h
        · rw [openings_of_word h]
          exact Nat.zero_le _

end RightSide

namespace Action

theorem openings_literal (v : Value) : openings (literal v).toList = v.openings := by
  cases v with
  | null => rfl
  | bool holds => cases holds <;> rfl
  | number n => simp [literal, Number.text, Number.openings_chars, Value.openings]
  | string s =>
    have hescape := openings_flatMap RightSide.escape (fun c => by
      rw [RightSide.escape]
      split
      · rename_i hc
        rcases hc with rfl | rfl <;> rfl
      · rfl) s.toList
    rw [RightSide.literal_string, openings_cons, openings_append, hescape]
    rfl
  | array items => exact PropertyList.openings_text (.array items)
  | object members => exact PropertyList.openings_text (.object members)

theorem openings_assign (key : String) (v : Value) :
    openings (Action.assign key v).text.toList = openings key.toList + v.openings := by
  rw [assign_toList, openings_append]
  simp [openings_literal]

theorem openings_reference (key path : String) :
    openings (Action.reference key path).text.toList =
      openings key.toList + openings path.toList := by
  rw [reference_toList, openings_append]
  simp

theorem openings_ofSides {form? : Option Form} {key : String} {right : List Char} {a : Action}
    (h : ofSides form? key right = .ok a) :
    openings a.text.toList ≤ openings key.toList + openings right := by
  rw [ofSides.eq_def] at h
  split at h
  · cases h
    exact Nat.le_of_eq (by rw [openings_assign, Value.openings, String.toList_ofList])
  · obtain ⟨path, hpath, h⟩ := bind_eq_ok_iff.1 h
    obtain ⟨rfl, _⟩ := RightSide.checkedPath_ok hpath
    cases h
    exact Nat.le_of_eq (by rw [openings_reference, String.toList_ofList])
  · obtain ⟨side, hside, h⟩ := bind_eq_ok_iff.1 h
    rcases RightSide.parse_ok hside with ⟨v, rfl, _⟩ | ⟨rfl, _⟩
    · cases h
      rw [openings_assign]
      exact Nat.add_le_add_left (RightSide.openings_of_parse hside) _
    · cases h
      rw [openings_reference, String.toList_ofList]
      exact Nat.add_le_add_left (openings_le_of_sublist (trim_sublist right)) _

theorem openings_splitAssignment {text right : List Char} {key : String}
    (h : splitAssignment text = .ok (key, right)) :
    openings key.toList + openings right ≤ openings text := by
  rw [splitAssignment] at h
  split at h
  · cases h
  · rename_i front rest hcut
    split at h
    · cases h
    · cases h
      have htext := congrArg openings (cut?_append hcut)
      have hkey := openings_le_of_sublist (trim_sublist front)
      have hright := openings_le_of_sublist
        ((trim_sublist (rest.drop 1)).trans (List.drop_sublist 1 rest))
      rw [openings_append] at htext
      rw [String.toList_ofList]
      omega

/-- A class name in front of an assignment takes parentheses away. -/
theorem openings_lt_of_cast {text : List Char} {a : Action}
    (hhead : (trim text).head? = some '(') (h : parse text none = .ok a) :
    openings a.text.toList < openings text := by
  have hsub := openings_le_of_sublist (trim_sublist text)
  cases htrim : trim text with
  | nil =>
    rw [htrim] at hhead
    cases hhead
  | cons c inner =>
    rw [htrim] at hhead hsub
    cases hhead
    rw [parse, htrim, List.isEmpty_cons, if_neg (by decide)] at h
    obtain ⟨⟨form?, behind⟩, hcast, hassignment⟩ := bind_eq_ok_iff.1 h
    obtain ⟨⟨key, right⟩, hsides, hread⟩ := bind_eq_ok_iff.1 hassignment
    rw [splitCast] at hcast
    split at hcast
    · cases hcast
    · rename_i closing rest hrest
      cases hcast
      -- The parenthesis in front is not in the sides of the assignment.
      have hbehind := openings_le_of_sublist
        ((trimStart_suffix rest).sublist.trans (List.sublist_cons_self closing rest))
      have hinner := openings_le_of_sublist
        (List.dropWhile_sublist (fun c => decide (c ≠ ')')) (l := inner))
      have hsplit := openings_splitAssignment hsides
      have haction := openings_ofSides hread
      rw [hrest] at hinner
      rw [openings_cons, if_pos rfl] at hsub
      omega

end Action

/-! ## Equal actions -/

/-- What is equal to an assignment of a constant is one to the same key, of an equal constant. -/
theorem Action.eq_assign_of_same {b : Action} {key : String} {v : Value}
    (h : b.same (.assign key v) = true) : ∃ w, b = .assign key w ∧ w.same v = true := by
  cases b with
  | assign other w =>
    rw [Action.same, Bool.and_eq_true, beq_iff_eq] at h
    exact ⟨w, by rw [h.1], h.2⟩
  | reference other path => cases h
  | compound members => cases h
  | rule r => cases h

theorem Action.eq_reference_of_same {b : Action} {key path : String}
    (h : b.same (.reference key path) = true) : b = .reference key path := by
  cases b with
  | assign other w => cases h
  | reference other path' =>
    rw [Action.same, Bool.and_eq_true, beq_iff_eq, beq_iff_eq] at h
    rw [h.1, h.2]
  | compound members => cases h
  | rule r => cases h

/-- Equal actions have equally many parentheses in their texts. -/
theorem Action.openings_eq_of_same {a b : Action} (ha : a.Parsed) (h : b.same a = true) :
    openings b.text.toList = openings a.text.toList := by
  cases ha with
  | @assign key v hkey hv =>
    obtain ⟨w, rfl, hw⟩ := Action.eq_assign_of_same h
    rw [openings_assign, openings_assign, Value.openings_eq_of_same hw]
  | reference hkey hpath hsome => rw [Action.eq_reference_of_same h]

end RankedRules
