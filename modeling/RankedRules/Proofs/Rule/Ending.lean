/-
Where the action of a rule ends.

The action ends at the first semicolon that is outside of quotes and brackets. If something is left
open in front of the priority, that semicolon is not free, and the priority becomes a part of the
right side, which then is no longer the same. If there is another free semicolon, the action ends
early.

* `RightSide.parse_behind` — with the priority behind it, a literal is no longer that literal;
* `Rule.parseRight_open`, `Rule.parseRight_early` — the two ways to miss the end;
* `Rule.exists_front` — in any case, the action is read from a beginning of the text.
-/
import RankedRules.Proofs.Rule.Legible

namespace RankedRules

open Scan Text

/-! ## Right sides with the priority behind them -/

theorem Priority.ending_solid {front : List Char} (hfront : Solid front) (p : Int) :
    Solid (front ++ Priority.ending p) :=
  hfront.append (Number.chars_solid (.integer p)) [' ', ';', ' ']

namespace RightSide

/-- The name of a constant is no constant with something behind it. -/
theorem parse_word_behind {c : Char} {cs : List Char} (hc : c.isAlpha = true)
    (hsolid : Solid (c :: cs)) (p : Int) (v : Value) :
    parse (c :: cs ++ Priority.ending p) ≠ .ok (.literal v) := by
  have hsign : ∀ d : Char, d.isAlpha = false → c ≠ d := by
    rintro d hd rfl
    rw [hc] at hd
    cases hd
  have hdigit : c.isDigit = false := Bool.eq_false_iff.2 fun hdigit => by
    have hletter := toNat_of_isAlpha hc
    have hnumber := toNat_of_isDigit hdigit
    omega
  have hmem : ';' ∈ (String.ofList (c :: cs ++ Priority.ending p)).toList := by
    simp [Priority.ending]
  have hname : String.ofList (c :: cs ++ Priority.ending p) ∉ constantNames := fun hmember => by
    have hnone : ∀ name ∈ constantNames, ';' ∉ name.toList := by decide
    exact hnone _ hmember hmem
  rw [parse, (Priority.ending_solid hsolid p).trim_eq]
  simp only [List.cons_append, hsign '"' rfl, hsign '\'' rfl, hsign '-' rfl, hsign '\x7b' rfl,
    hsign '(' rfl, hdigit, or_self, if_false, Bool.false_eq_true]
  exact word_ne_literal hname v

theorem length_le_length_unquote (quote : Char) (inner : List Char) :
    inner.length ≤ (unquote quote inner).length + 1 := by
  rw [unquote]
  split
  · rw [List.length_dropLast]
    omega
  · omega

/-- A string gets longer by what stands behind it. -/
theorem parse_string_behind (s : String) (p : Int) {w : Value}
    (h : parse ((Action.literal (.string s)).toList ++ Priority.ending p) = .ok (.literal w)) :
    w.same (.string s) = false := by
  have htrim := (Priority.ending_solid (literal_solid (.string s)) p).trim_eq
  have htext : (Action.literal (.string s)).toList ++ Priority.ending p =
      '"' :: (s.toList.flatMap escape ++ '"' :: Priority.ending p) := by
    simp [literal_string]
  have hescape := length_le_length_escape s.toList
  have hunquote := length_le_length_unquote '"'
    (s.toList.flatMap escape ++ '"' :: Priority.ending p)
  rw [parse, htrim, htext] at h
  simp only [true_or, if_true] at h
  cases h
  rw [Value.same, beq_eq_false_iff_ne]
  intro heq
  have hlength := congrArg (fun text : String => text.toList.length) heq
  simp only [String.toList_ofList] at hlength
  have hending : 3 ≤ (Priority.ending p).length := by simp [Priority.ending]
  simp only [List.length_append, List.length_cons] at hunquote
  omega

/-- A number is followed by a blank, which no number contains. -/
theorem parse_number_behind (n : Number) (p : Int) (right : RightSide) :
    parse ((Action.literal (.number n)).toList ++ Priority.ending p) ≠ .ok right := by
  obtain ⟨c, cs, hchars, hfirst, _⟩ := n.chars_begins
  have htext : (Action.literal (.number n)).toList = c :: cs := by
    rw [Action.literal, Number.text, String.toList_ofList, hchars]
  have hsolid : Solid (c :: cs) := hchars ▸ n.chars_solid
  have hnone : Number.ofChars? (c :: cs ++ Priority.ending p) = none :=
    Number.ofChars?_eq_none (c := ';') (by simp [Priority.ending]) rfl (by decide)
  rw [htext, parse, (Priority.ending_solid hsolid p).trim_eq]
  rw [List.cons_append] at hnone ⊢
  simp only [if_neg (not_quote_of_isDigit hfirst), if_pos hfirst, number, hnone]
  rintro ⟨⟩

theorem parse_collection_behind {v : Value} (hv : PropertyList.Printable v)
    (hcollection : (∃ items, v = .array items) ∨ ∃ members, v = .object members) (p : Int)
    (right : RightSide) :
    parse ((PropertyList.text v).toList ++ Priority.ending p) ≠ .ok right := by
  obtain ⟨c, between, d, htext, hc, hsolid⟩ := exists_brackets hcollection
  have hbehind : ∀ c ∈ (Priority.ending p).head?, PropertyList.isWordChar c = false := by
    rintro c ⟨⟩
    decide
  have hskip : PropertyList.skip (Priority.ending p) ≠ [] := by
    rw [Priority.ending, PropertyList.skip_blank,
      PropertyList.skip_token (by decide) (by decide)]
    simp
  have hread : ∀ w,
      PropertyList.parse ((PropertyList.text v).toList ++ Priority.ending p) ≠ .ok w := fun w =>
    PropertyList.parse_text_append hv hbehind hskip
  have hwhole := Priority.ending_solid hsolid p
  -- The text begins with the bracket, so nothing but a property list is tried.
  rw [htext] at hread ⊢
  rw [List.singleton_append, List.cons_append] at hread hwhole ⊢
  rw [parse_bracket hc hwhole, propertyList]
  split
  · rename_i w hw
    exact absurd hw (hread w)
  · rintro ⟨⟩

/-- With the priority behind it, a literal is not read as a constant that is equal to it. -/
theorem parse_behind {v w : Value} (hv : IsConstant v) (p : Int)
    (h : parse ((Action.literal v).toList ++ Priority.ending p) = .ok (.literal w)) :
    w.same v = false := by
  cases hv with
  | null =>
    exact absurd h (parse_word_behind (c := 'n') rfl (literal_solid .null) p w)
  | bool holds =>
    cases holds with
    | false =>
      exact absurd h (parse_word_behind (c := 'f') rfl (literal_solid (.bool false)) p w)
    | true =>
      exact absurd h (parse_word_behind (c := 't') rfl (literal_solid (.bool true)) p w)
  | string s => exact parse_string_behind s p h
  | @number n hn => exact absurd h (parse_number_behind n p _)
  | array hv => exact absurd h (parse_collection_behind hv (.inl ⟨_, rfl⟩) p _)
  | object hv => exact absurd h (parse_collection_behind hv (.inr ⟨_, rfl⟩) p _)

end RightSide

/-! ## Where the action ends -/

/-- If something is open, the semicolon in front of the priority is not free. -/
theorem Priority.ending_noFree {s : State} (hs : s.IsProper) (hopen : s ≠ {}) (p : Int) :
    NoFree true ';' s (Priority.ending p) := by
  have hnone : ';' ∉ Number.integerChars p := fun hmem => by
    cases Number.isScientificChar_of_mem_chars (n := .integer p) hmem
  intro front behind hsplit
  match front with
  | [] => cases hsplit
  | [c] =>
    cases hsplit
    obtain ⟨hquote, hdepth⟩ :
        (s.next true ' ').quote = s.quote ∧ (s.next true ' ').depth = s.depth :=
      quote_next_of_isBlank hs (by decide)
    refine Bool.eq_false_iff.2 fun hfree => hopen ?_
    change isFree true (s.next true ' ') ';' = true at hfree
    simp only [isFree, hquote, hdepth, Bool.and_eq_true, beq_iff_eq,
      Option.isNone_iff_eq_none] at hfree
    exact hs.eq_start hfree.1.1.1 hfree.1.1.2
  | c :: d :: front =>
    have hmem : ';' ∈ ' ' :: Number.integerChars p := by
      rw [(List.cons.inj (List.cons.inj hsplit).2).2]
      simp
    simp [hnone] at hmem

/-- If something is open behind the action, the priority becomes a part of it. -/
theorem Rule.parseRight_open {action : List Char} {s : State}
    (haction : Passes true [';'] {} action s) (hs : s.IsProper) (hopen : s ≠ {}) (p : Int) :
    Rule.parseRight ([' '] ++ (action ++ Priority.ending p)) =
      (Action.parse ([' '] ++ (action ++ Priority.ending p)) none).map (·, Priority.normal) := by
  have hblank : Passes true [';'] {} [' '] {} := PropertyList.passes_of_signs (by decide) 0
  have hcut : cut? true [';'] ([' '] ++ (action ++ Priority.ending p)) = none := by
    rw [cut?, List.isEmpty_cons, if_neg (by decide), hblank, haction,
      (Priority.ending_noFree hs hopen p).cutFrom?_eq_none]
    rfl
  rw [Rule.parseRight, hcut]
  dsimp only
  cases Action.parse ([' '] ++ (action ++ Priority.ending p)) none <;> rfl

/-- If there is a free semicolon in the action, the action ends there. -/
theorem Rule.parseRight_early {action front behind : List Char} {p : Int}
    (hcut : ∀ more, cutFrom? true [';'] {} (action ++ more) = some (front, ';' :: (behind ++ more)))
    {found : Action × Int}
    (h : Rule.parseRight ([' '] ++ (action ++ Priority.ending p)) = .ok found) :
    Action.parse ([' '] ++ front) none = .ok found.1 := by
  have hblank : Passes true [';'] {} [' '] {} := PropertyList.passes_of_signs (by decide) 0
  have hwhole : cut? true [';'] ([' '] ++ (action ++ Priority.ending p)) =
      some ([' '] ++ front, ';' :: (behind ++ Priority.ending p)) := by
    rw [cut?, List.isEmpty_cons, if_neg (by decide), hblank, hcut]
    rfl
  rw [Rule.parseRight, hwhole] at h
  obtain ⟨a, ha, h⟩ := bind_eq_ok_iff.1 h
  cases h
  exact ha

/-- In any case, an action is read from the text behind the arrow or from a beginning of it. -/
theorem Rule.exists_front {text : List Char} {found : Action × Int}
    (h : Rule.parseRight text = .ok found) :
    ∃ front behind, text = front ++ behind ∧ Action.parse front none = .ok found.1 := by
  rw [Rule.parseRight] at h
  obtain ⟨a, ha, h⟩ := bind_eq_ok_iff.1 h
  cases h
  split at ha
  · rename_i front rest hcut
    exact ⟨front, rest, (cut?_append hcut).symm, ha⟩
  · exact ⟨text, [], by simp, ha⟩

end RankedRules
