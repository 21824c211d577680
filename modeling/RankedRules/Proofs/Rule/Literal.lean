/-
Property lists as values of rules.

Behind a property list, the search for the semicolon of a rule has to be where it was in front of
it. It is so if the list is settled, which all lists are that have no quotes, brackets and
semicolons in their comments. Otherwise the semicolon in front of the priority is not found, or
another one is found in the list, and the rule does not get its priority.

* `Rule.parse_literal` — a settled property list is the value of the rule, with any priority;
* `Rule.settled_of_parse_literal` — and no other one is;
* `Rule.reads_literal` — both directions, and the lists with quiet comments.
-/
import RankedRules.Proofs.PropertyList.Bounds
import RankedRules.Proofs.Rule.Ending
import RankedRules.Proofs.Rule.Heading

namespace RankedRules

open Scan Text

/-- A property list is the value that it is, without the blanks around it. -/
theorem RightSide.parse_of_propertyList {c : Char} {cs : List Char} (hc : c = '\x7b' ∨ c = '(')
    {v : Value} (h : PropertyList.parse (c :: cs) = .ok v) :
    RightSide.parse (trim (c :: cs)) = .ok (.literal v) := by
  have hblank : isBlank c = false := by
    rcases hc with rfl | rfl <;> decide
  have hhead : (trim (c :: cs)).head? = some c := head?_trim .nil hblank cs
  have hread : PropertyList.parse (trim (c :: cs)) = .ok v := by
    obtain ⟨behind, hbehind, hcs⟩ := exists_trimEnd (c :: cs)
    rw [trim, trimStart_of_not_blank hblank]
    rw [hcs] at h
    exact PropertyList.parse_blanks hbehind h
  have hsolid : Solid (trim (c :: cs)) := .of_trim fun hnil => by
    rw [hnil] at hhead
    cases hhead
  obtain ⟨rest, hrest⟩ := List.head?_eq_some_iff.1 hhead
  rw [hrest] at hread hsolid ⊢
  rw [parse_bracket hc hsolid, propertyList, hread]

/-! ## The text in front of the value -/

/-- The text of a rule that always applies in front of its action. -/
theorem Rule.parse_always (right : List Char) :
    Rule.parse ("*true* =>".toList ++ right) =
      (Rule.parseRight right).map fun (action, priority) =>
        ⟨some (.constant true), some action, priority⟩ := by
  have hpasses : Passes false ['=', '>'] {} "*true* ".toList {} :=
    Qualifier.passes_of_signs (by decide)
  have hcut : cut? false ['=', '>'] ("*true* ".toList ++ '=' :: '>' :: right) =
      some ("*true* ".toList, '=' :: '>' :: right) :=
    cut?_of_passes (by simp) hpasses rfl rfl
  have hqualifier : Qualifier.parseText "*true* ".toList = .ok (.constant true) := rfl
  have hrule := Rule.parse_of_cut hcut (by decide)
  rw [hqualifier] at hrule
  exact hrule

/-- The text of a rule in front of its value. -/
theorem Rule.parse_constant (right : List Char) :
    Rule.parse ("*true* => x = ".toList ++ right) =
      (Rule.parseRight (" x = ".toList ++ right)).map fun (action, priority) =>
        ⟨some (.constant true), some action, priority⟩ :=
  Rule.parse_always (" x = ".toList ++ right)

/-- A property list that closes what it opens is the value of the rule, with any priority. -/
theorem Rule.parse_literal {c : Char} {cs : List Char} (hc : c = '\x7b' ∨ c = '(') {v : Value}
    (h : PropertyList.parse (c :: cs) = .ok v) (hsettled : Settled true ';' 0 (c :: cs)) {n : Int}
    (hn : Priority.isSigned32 n = true) :
    Rule.parse ("*true* => x = ".toList ++ (c :: cs ++ Priority.ending n)) =
      .ok ⟨some (.constant true), some (.assign "x" v), n⟩ := by
  have hpasses : Passes true [';'] {} ("x = ".toList ++ c :: cs) {} := by
    have hkey : Passes true [';'] {} "x = ".toList {} := PropertyList.passes_of_signs (by decide) 0
    have hvalue := hsettled.noFree.passes
    rw [hsettled.state] at hvalue
    exact hkey.append hvalue
  have haction : Action.parse ([' '] ++ ("x = ".toList ++ c :: cs ++ [' '])) none =
      .ok (.assign "x" v) := by
    have hkey : Action.IsKey "x" := ⟨⟨by decide, by decide, by decide⟩, by decide, rfl⟩
    have htrim : trim (c :: cs ++ [' ']) = trim (c :: cs) := trim_concat rfl (c :: cs)
    have htext : "x = ".toList ++ c :: cs = "x".toList ++ ' ' :: '=' :: ' ' :: c :: cs := rfl
    rw [Action.parse_sides hkey (by decide) htext [' '], htrim, Action.ofSides,
      RightSide.parse_of_propertyList hc h]
    rfl
  have hright := Rule.parseRight_semicolon hpasses hn
  rw [haction] at hright
  have hrule := Rule.parse_constant (c :: cs ++ Priority.ending n)
  rw [show " x = ".toList ++ (c :: cs ++ Priority.ending n) =
    [' '] ++ ("x = ".toList ++ c :: cs ++ Priority.ending n) by simp, hright] at hrule
  exact hrule

/-! ## Lists that are not settled -/

/-- What contains a semicolon is no priority. -/
theorem Priority.parse_of_semicolon {text : List Char} (h : ';' ∈ text) :
    Priority.parse text = Priority.normal := by
  have hmem : ';' ∈ trim text := mem_trim h (by decide)
  have hinteger : Decimal.integer? (trim text) = none :=
    Decimal.integer?_eq_none hmem rfl (by decide)
  have hname : Priority.named? (String.ofList (trim text)) = none := by
    rw [Priority.named?.eq_def]
    split
    all_goals first
      | rfl
      | rename_i hname
        have hnone := congrArg String.toList hname
        rw [String.toList_ofList] at hnone
        rw [hnone] at hmem
        revert hmem
        decide
  simp only [Priority.parse, hinteger, hname]
  split <;> rfl

/-- If the action ends early, what stands behind it is no priority. -/
theorem Rule.priority_early {action front behind : List Char} {p : Int}
    (hcut : ∀ more, cutFrom? true [';'] {} (action ++ more) = some (front, ';' :: (behind ++ more)))
    {found : Action × Int}
    (h : Rule.parseRight ([' '] ++ (action ++ Priority.ending p)) = .ok found) :
    found.2 = Priority.normal := by
  have hblank : Passes true [';'] {} [' '] {} := PropertyList.passes_of_signs (by decide) 0
  have hwhole : cut? true [';'] ([' '] ++ (action ++ Priority.ending p)) =
      some ([' '] ++ front, ';' :: (behind ++ Priority.ending p)) := by
    rw [cut?, List.isEmpty_cons, if_neg (by decide), hblank, hcut]
    rfl
  rw [Rule.parseRight, hwhole] at h
  obtain ⟨a, _, h⟩ := bind_eq_ok_iff.1 h
  cases h
  exact Priority.parse_of_semicolon (by simp [Priority.ending])

/-- If a rule gets its priority from behind a text, the text is settled. -/
theorem Rule.settled_of_parse_literal {cs : List Char} {n : Int} (hn : n ≠ Priority.normal)
    {r : Rule} (h : Rule.parse ("*true* => x = ".toList ++ (cs ++ Priority.ending n)) = .ok r)
    (hr : r.priority = n) : Settled true ';' 0 cs := by
  rw [Rule.parse_constant] at h
  obtain ⟨⟨a, p⟩, hright, rfl⟩ := map_eq_ok_iff.1 h
  have hpriority : p = n := hr
  have htext : " x = ".toList ++ (cs ++ Priority.ending n) =
      [' '] ++ ("x = ".toList ++ cs ++ Priority.ending n) := by simp
  rw [htext] at hright
  have hkey : Settled true ';' 0 "x = ".toList := PropertyList.settled_of_isQuiet (by decide) 0
  have hfree : NoFree true ';' {} ("x = ".toList ++ cs) := by
    refine Classical.byContradiction fun hfound => hn ?_
    obtain ⟨front, behind, _, hcut⟩ := exists_cut_of_not_noFree hfound
    exact hpriority.symm.trans (Rule.priority_early hcut hright)
  have hstate : ({} : State).after true ("x = ".toList ++ cs) = {} := by
    refine Classical.byContradiction fun hopen => hn ?_
    have hproper : (({} : State).after true ("x = ".toList ++ cs)).IsProper :=
      State.IsProper.start.after _
    rw [Rule.parseRight_open hfree.passes hproper hopen] at hright
    obtain ⟨a', _, heq⟩ := map_eq_ok_iff.1 hright
    cases heq
    exact hpriority.symm
  have hkeyState : ({} : State).after true "x = ".toList = {} := hkey.state
  rw [after_append, hkeyState] at hstate
  have hnone := hfree.right
  rw [hkeyState] at hnone
  exact ⟨hstate, hnone⟩

/-- A property list can be the value of a rule with any priority if it closes what it opens, with no
semicolon outside of quotes and brackets, and only then. It does so if there are no quotes, brackets
and semicolons in its comments. -/
theorem Rule.reads_literal {p : List Char} {v : Value}
    (hbracket : p.head? = some '\x7b' ∨ p.head? = some '(') (h : PropertyList.parse p = .ok v) :
    ((∀ n, Priority.isSigned32 n = true →
      Rule.parse ("*true* => x = ".toList ++ (p ++ (" ; ".toList ++ Number.integerChars n))) =
        .ok ⟨some (.constant true), some (.assign "x" v), n⟩) ↔ Settled true ';' 0 p) ∧
    (PropertyList.Quiet .between p → Settled true ';' 0 p) := by
  obtain ⟨c, cs, rfl, hc⟩ : ∃ c cs, p = c :: cs ∧ (c = '\x7b' ∨ c = '(') := by
    rcases hbracket with hhead | hhead
    · obtain ⟨cs, rfl⟩ := List.head?_eq_some_iff.1 hhead
      exact ⟨_, cs, rfl, .inl rfl⟩
    · obtain ⟨cs, rfl⟩ := List.head?_eq_some_iff.1 hhead
      exact ⟨_, cs, rfl, .inr rfl⟩
  refine ⟨⟨fun hall => ?_, fun hsettled n hn => Rule.parse_literal hc h hsettled hn⟩,
    fun hquiet => hquiet.settled h⟩
  exact Rule.settled_of_parse_literal (n := 0) (by decide) (hall 0 (by decide)) rfl

theorem Rule.reads_literal_commented :
    Rule.parse ("*true* => x = ".toList ++
      ("\x7b a = \"1;(\"; /* no sign */ b = (c,); \x7d // end\n".toList ++
      (" ; ".toList ++ Number.integerChars (-5)))) =
        .ok ⟨some (.constant true), some (.assign "x" (.object [("a", .string "1;("),
          ("b", .array [.string "c"])])), -5⟩ := by
  have hread : PropertyList.parse "\x7b a = \"1;(\"; /* no sign */ b = (c,); \x7d // end\n".toList =
      .ok (.object [("a", .string "1;("), ("b", .array [.string "c"])]) := rfl
  obtain ⟨hiff, hsettled⟩ := reads_literal (.inl rfl) hread
  exact hiff.2 (hsettled (by decide)) (-5) (by decide)

/-- Not every property list can be the value of a rule: a quote in a comment is taken for the
beginning of a string. -/
theorem Rule.not_every_literal_read : ¬∀ (p : List Char) (v : Value),
    (p.head? = some '\x7b' ∨ p.head? = some '(') → PropertyList.parse p = .ok v →
      ∀ n, Priority.isSigned32 n = true →
        Rule.parse ("*true* => x = ".toList ++ (p ++ (" ; ".toList ++ Number.integerChars n))) =
          .ok ⟨some (.constant true), some (.assign "x" v), n⟩ := by
  intro hall
  have hread : PropertyList.parse "( a /* it's */ )".toList = .ok (.array [.string "a"]) := rfl
  have hrule := hall _ _ (.inr rfl) hread 5 (by decide)
  have hfails : Rule.parse ("*true* => x = ".toList ++ ("( a /* it's */ )".toList ++
      (" ; ".toList ++ Number.integerChars 5))) = .error (.propertyList 17 .trailing) := rfl
  rw [hfails] at hrule
  cases hrule

end RankedRules
