/-
Qualifiers in front of an arrow.

A rule is taken apart at its first arrow outside of quotes, while an arrow is also one of the signs
of "greater or equal". A qualifier closes its quotes, so without such a sign in it the first arrow
is the one behind it. With such a sign the rule is taken apart there, and the rest of the qualifier
becomes a part of the action, which then is no longer the same.

* `Scan.passes_of_cutFrom?_eq_none` — a text without an arrow, in front of other characters;
* `Rule.parse_of_cut` — the parts of a rule on both sides of its arrow;
* `Action.parse_ne_of_sign` — no number is assigned where a sign of comparison stands;
* `Rule.heads_rule` — the qualifiers that can stand in front of an assignment.
-/
import RankedRules.Proofs.Qualifier.Settled
import RankedRules.Proofs.Rule.Legible

namespace RankedRules

open Scan Text

/-! ## The first arrow -/

namespace Scan

variable {nesting : Bool} {s : State} {text front rest : List Char}

/-- A needle of two characters that is not in a text does not begin in it either, if something else
follows. -/
theorem passes_of_cutFrom?_eq_none {a b c : Char} (ha : a ≠ c) (hb : b ≠ c)
    (h : cutFrom? nesting [a, b] s text = none) :
    Passes nesting [a, b] s (text ++ [c]) (s.after nesting (text ++ [c])) := by
  induction text generalizing s with
  | nil => exact .single (.inr (isPrefixOf_of_ne ha [b]))
  | cons d text ih =>
    rw [cutFrom?] at h
    split at h
    · cases h
    · rename_i hstop
      intro rest
      -- Whether the needle begins here is seen from the next character, which is there.
      have hsame :
          [a, b].isPrefixOf (d :: (text ++ [c] ++ rest)) = [a, b].isPrefixOf (d :: text) := by
        cases text with
        | nil => simp [List.isPrefixOf, hb]
        | cons e text => simp [List.isPrefixOf]
      rw [List.cons_append, List.cons_append, cutFrom?, hsame, if_neg hstop,
        ih (Option.map_eq_none_iff.1 h) rest, Option.map_map]
      rfl

/-- Behind a free arrow, a scan is as at the start. -/
theorem Settled.noFree_behind_arrow {n : Char} {behind : List Char}
    (h : Settled false n 0 (front ++ '=' :: '>' :: behind))
    (hfree : isFree false (({} : State).after false front) '=' = true) :
    NoFree true n {} behind := by
  have hfront : ({} : State).after false front = {} := by
    have hproper : (({} : State).after false front).IsProper := State.IsProper.start.after front
    simp only [isFree, Bool.and_eq_true, Option.isNone_iff_eq_none, beq_iff_eq] at hfree
    exact hproper.eq_start hfree.1.1.1 hfree.1.1.2
  have harrow : ({} : State).after false (front ++ ['=', '>']) = {} := by
    rw [after_append, hfront]
    rfl
  have hwhole : NoFree false n {} ((front ++ ['=', '>']) ++ behind) := by
    simpa using h.noFree
  have hbehind := hwhole.right
  rw [harrow] at hbehind
  exact hbehind.respectNesting

end Scan

/-! ## Numbers on the right side -/

/-- What begins with a bracket is not read as a number. -/
theorem PropertyList.ne_number_of_bracket {c : Char} (hc : c = '\x7b' ∨ c = '(') (rest : List Char)
    (n : Number) : PropertyList.parse (c :: rest) ≠ .ok (.number n) := by
  have hskip : PropertyList.skip (c :: rest) = c :: rest := by
    rcases hc with rfl | rfl
    · exact PropertyList.skip_token (by decide) (by decide) rest
    · exact PropertyList.skip_token (by decide) (by decide) rest
  intro h
  obtain ⟨behind, hread, -⟩ := Reader.whole_eq_ok_iff.1 h
  rw [PropertyList.value, hskip] at hread
  dsimp only at hread
  split at hread
  · obtain ⟨⟨pairs, left⟩, _, hread⟩ := bind_eq_ok_iff.1 hread
    cases hread
  · rename_i hbrace
    rw [if_pos (hc.resolve_left hbrace)] at hread
    obtain ⟨⟨items, left⟩, _, hread⟩ := bind_eq_ok_iff.1 hread
    cases hread

theorem RightSide.word_ne_number (text : String) (n : Number) :
    RightSide.word text ≠ .ok (.literal (.number n)) := by
  intro h
  rw [RightSide.word.eq_def] at h
  split at h
  all_goals first
    | cases h
    | obtain ⟨path, _, hpath⟩ := map_eq_ok_iff.1 h
      cases hpath

/-- Only a numeral is read as a number. -/
theorem RightSide.number_of_parse {text : List Char} {n : Number}
    (h : RightSide.parse text = .ok (.literal (.number n))) :
    Number.ofChars? (trim text) = some n := by
  rw [RightSide.parse] at h
  split at h
  · cases h
  · rename_i c rest htext
    rw [htext]
    split at h
    · cases h
    · split at h
      · rw [RightSide.number] at h
        split at h
        · rename_i m hm
          cases h
          exact hm
        · cases h
      · split at h
        · rename_i hbracket
          rw [RightSide.propertyList] at h
          split at h
          · rename_i v hv
            cases h
            exact absurd hv (PropertyList.ne_number_of_bracket hbracket rest n)
          · cases h
        · exact absurd h (RightSide.word_ne_number _ n)

namespace Action

/-- Behind a class name, the end of a text is still there. -/
theorem suffix_of_splitCast {text rest ending : List Char} {cast : Option String}
    (hsolid : Solid ending) (hclosing : ')' ∉ ending) (htext : ending <:+ text)
    (h : splitCast text = .ok (cast, rest)) : ending <:+ rest := by
  rw [splitCast.eq_def] at h
  split at h
  · rename_i inner
    split at h
    · cases h
    · rename_i c behind hdrop
      cases h
      have hc : c = ')' := by
        have hnot := List.head?_dropWhile_not (fun d => decide (d ≠ ')')) inner
        rw [hdrop] at hnot
        simpa using hnot
      subst hc
      have hbehind : ')' :: behind <:+ '(' :: inner := by
        rw [← hdrop]
        exact (List.dropWhile_suffix _).trans (List.suffix_cons _ _)
      have hending : ending <:+ behind := by
        rcases List.suffix_or_suffix_of_suffix htext hbehind with hleft | hright
        · rcases List.suffix_cons_iff.1 hleft with heq | hsuffix
          · exact absurd (by rw [heq]; exact List.mem_cons_self) hclosing
          · exact hsuffix
        · exact absurd (hright.subset List.mem_cons_self) hclosing
      exact hsolid.suffix_trimStart hending
  · cases h
    exact htext

/-- The two sides of an assignment stand around an equals sign. -/
theorem exists_sides {text right : List Char} {key : String}
    (h : splitAssignment text = .ok (key, right)) :
    ∃ front behind, text = front ++ '=' :: behind ∧ key.toList = trim front ∧
      right = trim behind := by
  rw [splitAssignment] at h
  split at h
  · cases h
  · rename_i front rest hcut
    obtain ⟨-, -, behind, rfl⟩ := noFree_of_cutFrom? hcut
    split at h
    · cases h
    · cases h
      exact ⟨front, behind, (cut?_append hcut).symm, String.toList_ofList, rfl⟩

/-- Where a sign stands that is in no number and in no class name, a key without that sign is not
assigned a number. -/
theorem parse_ne_of_sign {text behind : List Char} {c : Char} (hsolid : Solid (c :: behind))
    (hclosing : ')' ∉ c :: behind) (htext : c :: behind <:+ text) (hequals : c ≠ '=')
    (hnumber : c.isDigit = false ∧ c ∉ ['-', '+', '.', 'e', 'E']) {key : String}
    (hkey : c ∉ key.toList) (n : Number) : parse text none ≠ .ok (.assign key (.number n)) := by
  have hblank : isBlank c = false := hsolid.first c rfl
  intro h
  rw [parse] at h
  dsimp only at h
  split at h
  · cases h
  · obtain ⟨⟨cast, inner⟩, hcast, h⟩ := bind_eq_ok_iff.1 h
    obtain ⟨⟨key', right⟩, hsides, h⟩ := bind_eq_ok_iff.1 h
    have hmem : c ∈ inner :=
      (suffix_of_splitCast hsolid hclosing (hsolid.suffix_trim htext) hcast).subset
        List.mem_cons_self
    dsimp only at hsides h
    obtain ⟨front, rest, rfl, hkey', rfl⟩ := exists_sides hsides
    rw [ofSides.eq_def] at h
    split at h
    · cases h
    · obtain ⟨path, _, h⟩ := bind_eq_ok_iff.1 h
      cases h
    · obtain ⟨read, hread, h⟩ := bind_eq_ok_iff.1 h
      cases read with
      | path path => cases h
      | literal v =>
        cases h
        -- The sign is on one of the two sides, in the key or in the number.
        have hright : c ∈ rest := by
          rcases List.mem_append.1 hmem with hfront | hrest
          · rw [hkey'] at hkey
            exact absurd (mem_trim hfront hblank) hkey
          · exact (List.mem_cons.1 hrest).resolve_left hequals
        have hnone := Number.ofChars?_eq_none (mem_trim (mem_trim hright hblank) hblank) hnumber.1
          hnumber.2
        rw [RightSide.number_of_parse hread] at hnone
        cases hnone

end Action

/-! ## Rules -/

/-- A rule that is taken apart at an arrow is read in its two parts. -/
theorem Rule.parse_of_cut {text front right : List Char}
    (hcut : cut? false ['=', '>'] text = some (front, '=' :: '>' :: right))
    (hsize : 3 ≤ byteSize front) :
    Rule.parse text = (Qualifier.parseText front).bind fun q =>
      (Rule.parseRight right).map fun (action, priority) => ⟨some q, some action, priority⟩ := by
  have hblank : text.all isBlank = false := by
    rw [List.all_eq_false, ← cut?_append hcut]
    exact ⟨'=', by simp, by decide⟩
  rw [Rule.parse, hblank, hcut]
  simp only [Bool.false_eq_true, if_false, if_neg (Nat.not_lt.2 hsize), bind,
    List.drop_succ_cons, List.drop_zero]
  cases Qualifier.parseText front with
  | error fault => rfl
  | ok q => cases Rule.parseRight right <;> rfl

theorem Qualifier.settled_of_parseText {text : List Char} {q : Qualifier}
    (h : Qualifier.parseText text = .ok q) : Settled false ';' 0 text ∧ 2 ≤ text.length := by
  obtain ⟨hsettled, hlength⟩ := Qualifier.settled_of_parse (Qualifier.parseChars_ok h)
  obtain ⟨front, behind, hfront, hbehind, htext⟩ := exists_trim text
  have hblanks : ∀ blanks, Blanks blanks → Settled false ';' 0 blanks := fun _ hblanks =>
    .of_blanks (by decide) hblanks
  rw [htext]
  refine ⟨(hblanks front hfront).append (hsettled.append (hblanks behind hbehind)), ?_⟩
  simp only [List.length_append]
  omega

/-- A qualifier without a free arrow is the whole condition of the rule that it heads. -/
theorem Rule.parse_heading {text : List Char} {q : Qualifier}
    (hq : Qualifier.parseText text = .ok q) (hcut : cut? false ['=', '>'] text = none)
    (right : List Char) :
    Rule.parse (text ++ ' ' :: '=' :: '>' :: right) =
      (Rule.parseRight right).map fun (action, priority) => ⟨some q, some action, priority⟩ := by
  obtain ⟨hsettled, hlength⟩ := Qualifier.settled_of_parseText hq
  have hpasses : Passes false ['=', '>'] {} (text ++ [' ']) {} := by
    have hstate : ({} : State).after false (text ++ [' ']) = {} := by
      rw [after_append]
      show ((outside 0).after false text).after false [' '] = outside 0
      rw [hsettled.state]
      rfl
    have hall := passes_of_cutFrom?_eq_none (c := ' ') (by decide) (by decide) hcut
    rwa [hstate] at hall
  have hwhole : cut? false ['=', '>'] (text ++ [' '] ++ '=' :: '>' :: right) =
      some (text ++ [' '], '=' :: '>' :: right) :=
    cut?_of_passes (by simp) hpasses rfl rfl
  have hsize : 3 ≤ byteSize (text ++ [' ']) := by
    have hbytes := length_le_byteSize (text ++ [' '])
    rw [List.length_append, List.length_singleton] at hbytes
    omega
  have htrim : Qualifier.parseText (text ++ [' ']) = Qualifier.parseText text := by
    rw [Qualifier.parseText, trim_concat rfl, Qualifier.parseText]
  have hrule := Rule.parse_of_cut hwhole hsize
  rw [htrim, hq, List.append_assoc] at hrule
  exact hrule

/-- In the action of a rule that is taken apart at an arrow of its qualifier, the arrow behind the
qualifier is left. -/
theorem Rule.parse_split {text : List Char} {q : Qualifier}
    (hq : Qualifier.parseText text = .ok q) (hcut : cut? false ['=', '>'] text ≠ none)
    {r : Rule} (h : Rule.parse (text ++ " => x = 1".toList) = .ok r) :
    r.action ≠ some (.assign "x" (.number (.integer 1))) := by
  obtain ⟨⟨front, rest⟩, hfound⟩ := Option.ne_none_iff_exists'.1 hcut
  change cutFrom? false ['=', '>'] {} text = some (front, rest) at hfound
  obtain ⟨⟨right, rfl⟩, hfree⟩ := cutFrom?_eq_some hfound
  have hwhole : cut? false ['=', '>'] (text ++ " => x = 1".toList) =
      some (front, '=' :: '>' :: (right ++ " => x = 1".toList)) := cutFrom?_append_of_some hfound _
  -- Neither the qualifier nor what is behind it has a semicolon outside of quotes.
  have hnone : cut? true [';'] (right ++ " => x = 1".toList) = none := by
    have hsettled : Settled false ';' 0 (text ++ " => x = 1".toList) :=
      (Qualifier.settled_of_parseText hq).1.append
        (Qualifier.settled_of_class (p := fun c => c ∉ ['"', '\'', ';']) (by decide) (by decide))
    rw [← cut?_append hwhole] at hsettled
    exact (hsettled.noFree_behind_arrow (hfree '=' rfl)).cutFrom?_eq_none
  by_cases hsize : 3 ≤ byteSize front
  · rw [Rule.parse_of_cut hwhole hsize] at h
    obtain ⟨q', _, h⟩ := bind_eq_ok_iff.1 h
    obtain ⟨⟨a, p⟩, hread, rfl⟩ := map_eq_ok_iff.1 h
    rw [Rule.parseRight, hnone] at hread
    obtain ⟨a', ha, hread⟩ := bind_eq_ok_iff.1 hread
    cases hread
    rintro ⟨⟩
    have hsuffix : '>' :: " x = 1".toList <:+ right ++ " => x = 1".toList :=
      ⟨right ++ " =".toList, by simp⟩
    have hsolid : Solid ('>' :: " x = 1".toList) := ⟨by simp, by decide, by decide⟩
    exact Action.parse_ne_of_sign hsolid (by decide) hsuffix (by decide) (by decide) (by decide)
      _ ha
  · rw [Rule.parse, hwhole] at h
    dsimp only at h
    rw [if_pos (Nat.not_le.1 hsize)] at h
    split at h <;> cases h

/-- A qualifier can stand in front of an assignment if it contains no arrow outside of quotes, and
only then. -/
theorem Rule.heads_rule {text : List Char} {q : Qualifier}
    (h : Qualifier.parseText text = .ok q) :
    (cut? false ['=', '>'] text = none →
      Rule.parse (text ++ " => x = 1".toList) =
        .ok ⟨some q, some (.assign "x" (.number (.integer 1))), Priority.normal⟩) ∧
    (cut? false ['=', '>'] text ≠ none → ∀ r, Rule.parse (text ++ " => x = 1".toList) = .ok r →
      r.action ≠ some (.assign "x" (.number (.integer 1)))) := by
  refine ⟨fun hcut => ?_, fun hcut r hr => Rule.parse_split h hcut hr⟩
  have hright : Rule.parseRight " x = 1".toList =
      .ok (.assign "x" (.number (.integer 1)), Priority.normal) := rfl
  have hrule := Rule.parse_heading h hcut " x = 1".toList
  rw [hright] at hrule
  exact hrule

set_option maxRecDepth 4000 in
theorem Rule.heads_rule_quoted : ∃ q,
    Qualifier.parseText "note = 'a => b' and count >= 3".toList = .ok q ∧
      Rule.parse ("note = 'a => b' and count >= 3".toList ++ " => x = 1".toList) =
        .ok ⟨some q, some (.assign "x" (.number (.integer 1))), 100⟩ := by
  have hread : Qualifier.parseText "note = 'a => b' and count >= 3".toList =
      .ok (.compound .all [.compare "note" .equal (.string "a => b"),
        .compare "count" .greaterOrEqual (.number (.integer 3))]) := rfl
  exact ⟨_, hread, (heads_rule hread).1 (by decide)⟩

set_option maxRecDepth 4000 in
/-- Not every qualifier heads a rule: where "greater or equal" is written as an arrow, the rule is
taken apart there. -/
theorem Rule.not_every_qualifier_heads : ¬∀ (text : List Char) (q : Qualifier),
    Qualifier.parseText text = .ok q → ∃ r q', Rule.parse (text ++ " => x = 1".toList) = .ok r ∧
      r.action = some (.assign "x" (.number (.integer 1))) ∧ r.qualifier = some q' ∧
      q'.text = q.text ∧ q'.specificity = q.specificity := by
  intro hall
  have hread : Qualifier.parseText "count => 3".toList =
      .ok (.compare "count" .greaterOrEqual (.number (.integer 3))) := rfl
  obtain ⟨r, -, hrule, -⟩ := hall _ _ hread
  have hfails : Rule.parse ("count => 3".toList ++ " => x = 1".toList) =
      .error (.qualifier 5 .expectedOperator) := rfl
  rw [hfails] at hrule
  cases hrule

end RankedRules
