/-
Assignments: what is read, and how the canonical text is taken apart.

The key of an assignment is all that stands in front of the first equals sign outside quotes. So no
equals sign outside quotes is in the key, all quotes of the key are closed behind it, and the
canonical text of the assignment is taken apart at the same place again.

* `Action.IsKey` — the texts that keys can be;
* `Action.Parsed` — the actions that are read, `Action.parse_ok`;
* `Action.parse_append` — an assignment is taken apart behind its key;
* `Action.parse_eq_error` — without a free equals sign there is no assignment.
-/
import RankedRules.Proofs.Rule.RightSide

namespace RankedRules.Action

open Scan Text

/-- A text that can be a key: it has no equals sign outside quotes, and no quote is left open. -/
structure IsKey (key : String) : Prop where
  solid : Solid key.toList
  noEquals : NoFree false '=' {} key.toList
  closed : (({} : State).after false key.toList).quote = none

/-- An action that a text can be. -/
inductive Parsed : Action → Prop
  | assign {key : String} {v : Value} (hkey : IsKey key) (hv : RightSide.IsConstant v) :
      Parsed (.assign key v)
  | reference {key path : String} (hkey : IsKey key) (hpath : Solid path.toList)
      (hsome : (KeyPath.segments? path).isSome = true) : Parsed (.reference key path)

/-! ## What is read -/

theorem splitAssignment_ok {text right : List Char} {key : String}
    (h : splitAssignment text = .ok (key, right)) : IsKey key ∧ ∃ rest, right = trim rest := by
  rw [splitAssignment] at h
  split at h
  · cases h
  · rename_i front rest hcut
    split at h
    · cases h
    · rename_i htrim hne
      cases h
      obtain ⟨hnone, hfree, _⟩ := noFree_of_cutFrom? hcut
      rw [isFree, Bool.and_eq_true, Bool.and_eq_true, Bool.and_eq_true, quote_after_trim] at hfree
      refine ⟨⟨?_, ?_, ?_⟩, _, rfl⟩
      all_goals rw [String.toList_ofList]
      · exact .of_trim fun hnil => hne hnil
      · exact hnone.trim
      · exact Option.isNone_iff_eq_none.1 hfree.1.1.1

/-- The empty text is no key path. -/
theorem ne_nil_of_segments {path : String} (h : (KeyPath.segments? path).isSome = true) :
    path.toList ≠ [] := by
  intro hnil
  rw [KeyPath.segments?, hnil] at h
  simp [splitOn, trim, trimStart, trimEnd] at h

/-- An action that is read assigns a constant or the value at a key path to a key. -/
theorem parse_ok {text : List Char} {className : Option String} {action : Action}
    (h : parse text className = .ok action) : Parsed action := by
  rw [parse] at h
  split at h
  · cases h
  · obtain ⟨⟨form?, behind⟩, _, h⟩ := bind_eq_ok_iff.1 h
    obtain ⟨⟨key, right⟩, hsides, h⟩ := bind_eq_ok_iff.1 h
    obtain ⟨hkey, rest, hright⟩ := splitAssignment_ok hsides
    dsimp only at h
    rw [ofSides.eq_def] at h
    split at h
    · cases h
      exact .assign hkey (.string _)
    · obtain ⟨path, hpath, h⟩ := bind_eq_ok_iff.1 h
      obtain ⟨rfl, hsome⟩ := RightSide.checkedPath_ok hpath
      cases h
      refine .reference hkey ?_ hsome
      have hne := ne_nil_of_segments hsome
      rw [String.toList_ofList, hright] at hne ⊢
      exact .of_trim hne
    · obtain ⟨side, hside, h⟩ := bind_eq_ok_iff.1 h
      rcases RightSide.parse_ok hside with ⟨v, rfl, hv⟩ | ⟨rfl, hname, hsome⟩
      · cases h
        exact .assign hkey hv
      · cases h
        refine .reference hkey ?_ hsome
        have hne := ne_nil_of_segments hsome
        rw [String.toList_ofList] at hne ⊢
        exact .of_trim hne

/-! ## Canonical texts -/

theorem assign_toList (key : String) (v : Value) : (Action.assign key v).text.toList =
    key.toList ++ ' ' :: '=' :: ' ' :: (Action.literal v).toList := by
  simp [Action.text]

theorem reference_toList (key path : String) : (Action.reference key path).text.toList =
    key.toList ++ ' ' :: '=' :: ' ' :: path.toList := by
  simp [Action.text]

/-- What begins with a key and an equals sign is taken apart behind the key. -/
theorem splitAssignment_append {key : String} (hkey : IsKey key) (right : List Char) :
    splitAssignment (key.toList ++ ' ' :: '=' :: right) = .ok (key, trim right) := by
  -- A blank changes nothing behind the key, where all quotes are closed.
  have hnext : (({} : State).after false key.toList).next false ' ' =
      ({} : State).after false key.toList := by
    rw [State.next, hkey.closed]
    rfl
  have hpasses : Passes false ['='] {} (key.toList ++ [' '])
      (({} : State).after false key.toList) := by
    refine hkey.noEquals.passes.append ?_
    have hsingle : Passes false ['='] (({} : State).after false key.toList) [' ']
        ((({} : State).after false key.toList).next false ' ') :=
      .single (.inr fun rest => isPrefixOf_of_ne (by decide) [] rest)
    rwa [hnext] at hsingle
  have hfree : isFree false (({} : State).after false key.toList) '=' = true := by
    rw [isFree, hkey.closed, depth_after_false]
    rfl
  have hcut : cut? false ['='] (key.toList ++ [' '] ++ '=' :: right) =
      some (key.toList ++ [' '], '=' :: right) :=
    cut?_of_passes (by simp) hpasses hfree rfl
  have htext : key.toList ++ ' ' :: '=' :: right = key.toList ++ [' '] ++ '=' :: right := by simp
  rw [splitAssignment, htext, hcut]
  simp only [hkey.solid.trim_append_blank, List.drop_succ_cons, List.drop_zero]
  split
  · rename_i hnil
    exact absurd hnil hkey.solid.nonempty
  · rw [String.ofList_toList]

/-- A text that does not begin with a parenthesis names no class. -/
theorem splitCast_of_head {text : List Char} (h : text.head? ≠ some '(') :
    splitCast text = .ok (none, text) := by
  rw [splitCast.eq_def]
  split
  · exact absurd rfl h
  · rfl

/-- An assignment is read as its sides are, if its key is not taken for a class name. -/
theorem parse_append {key : String} (hkey : IsKey key) (hcast : key.toList.head? ≠ some '(')
    {front : List Char} (hfront : Blanks front) (right : List Char) :
    parse (front ++ (key.toList ++ ' ' :: '=' :: right)) none = ofSides none key (trim right) := by
  obtain ⟨behind, hbehind, hright⟩ := exists_trimEnd right
  -- The blanks at both ends go, and the assignment is taken apart at its equals sign.
  have hsolid : Solid (key.toList ++ ' ' :: '=' :: trimEnd right) := by
    have hequals : Solid ['='] := .of_no_blank (by decide) (by decide)
    have hbegin := hkey.solid.append hequals [' ']
    simpa using hbegin.append_trimEnd right
  have htrim : trim (front ++ (key.toList ++ ' ' :: '=' :: right)) =
      key.toList ++ ' ' :: '=' :: trimEnd right := by
    have happend := trim_append hfront hbehind (key.toList ++ ' ' :: '=' :: trimEnd right)
    rw [hsolid.trim_eq] at happend
    rw [← happend]
    congr 1
    simpa using hright
  have hhead : (key.toList ++ ' ' :: '=' :: trimEnd right).head? ≠ some '(' := by
    cases hlist : key.toList with
    | nil => exact absurd hlist hkey.solid.nonempty
    | cons c rest => rwa [hlist] at hcast
  have hempty : (key.toList ++ ' ' :: '=' :: trimEnd right).isEmpty = false :=
    List.isEmpty_eq_false_iff.2 hsolid.nonempty
  have hrightTrim : trim (trimEnd right) = trim right := by
    have happend := trim_append .nil hbehind (trimEnd right)
    rwa [List.nil_append, ← hright, eq_comm] at happend
  rw [parse, htrim, hempty]
  simp only [Bool.false_eq_true, if_false, splitCast_of_head hhead, splitAssignment_append hkey,
    hrightTrim, bind, Except.bind]
  rfl

/-- The same with the blanks of the canonical text, and with something behind it. -/
theorem parse_sides {key : String} (hkey : IsKey key) (hcast : key.toList.head? ≠ some '(')
    {text right : List Char} (htext : text = key.toList ++ ' ' :: '=' :: ' ' :: right)
    (behind : List Char) :
    parse ([' '] ++ (text ++ behind)) none = ofSides none key (trim (right ++ behind)) := by
  have hread := parse_append hkey hcast (.single (c := ' ') rfl) (' ' :: (right ++ behind))
  rw [trim_cons rfl] at hread
  simpa [htext] using hread

/-- Without a free equals sign and without a class name nothing is read. -/
theorem parse_eq_error {text : List Char} (hhead : (trim text).head? ≠ some '(')
    (hequals : NoFree false '=' {} text) (action : Action) : parse text none ≠ .ok action := by
  intro h
  have hcut : cut? false ['='] (trim text) = none := hequals.trim.cutFrom?_eq_none
  rw [parse] at h
  split at h
  · cases h
  · simp only [splitCast_of_head hhead, splitAssignment, hcut, bind, Except.bind] at h
    cases h

end RankedRules.Action
