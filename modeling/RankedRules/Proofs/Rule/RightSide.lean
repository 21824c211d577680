/-
Right sides of assignments: what they can be, and which are read back.

A constant is written as a literal that is read as this constant, with one exception: quotes and
backslashes in a string are escaped, and the reader takes what stands between the quotes as it is.
A key path is written as it is, so it is read back unless it looks like a literal.

* `RightSide.IsConstant`, `RightSide.IsName` — the constants that are read, and the key paths that
  look like no literal;
* `RightSide.parse_ok` — what a right side can be;
* `RightSide.parse_literal`, `RightSide.parse_name` — what is read back;
* `RightSide.literal_solid`, `RightSide.literal_passes` — a literal has no blanks at its ends, and
  the search for a semicolon passes over it.
-/
import RankedRules.Proofs.PropertyList.Scanned
import RankedRules.Rule.Parser

namespace RankedRules.RightSide

open Scan Text

/-- A constant that a right side can be. -/
inductive IsConstant : Value → Prop
  | null : IsConstant .null
  | bool (holds : Bool) : IsConstant (.bool holds)
  | string (s : String) : IsConstant (.string s)
  | number {n : Number} (hn : n.IsReadable) : IsConstant (.number n)
  | array {items : List Value} (h : PropertyList.Printable (.array items)) :
      IsConstant (.array items)
  | object {members : List (String × Value)} (h : PropertyList.Printable (.object members)) :
      IsConstant (.object members)

/-- The names of truth values and of null. -/
def constantNames : List String := ["true", "YES", "false", "NO", "null", "nil"]

/-- A text that looks like no literal: it does not begin like a string, a number or a property list,
and it is not the name of a constant. -/
structure IsName (text : String) : Prop where
  first : ∀ c ∈ text.toList.head?, c.isDigit = false ∧ c ∉ ['"', '\'', '-', '\x7b', '(']
  noConstant : text ∉ constantNames

/-- A text without the signs that are escaped in strings. -/
def IsUnescaped (text : String) : Prop := '"' ∉ text.toList ∧ '\\' ∉ text.toList

/-! ## What is read -/

theorem isConstant_of_printable {v : Value} (h : PropertyList.Printable v) : IsConstant v := by
  cases h with
  | number hn => exact .number hn
  | string s => exact .string s
  | array hitems => exact .array (.array hitems)
  | object hsorted hmembers => exact .object (.object hsorted hmembers)

theorem checkedPath_ok {text path : String} (h : checkedPath text = .ok path) :
    path = text ∧ (KeyPath.segments? path).isSome = true := by
  rw [checkedPath] at h
  split at h
  · rename_i hsome
    cases h
    exact ⟨rfl, hsome⟩
  · cases h

theorem word_ok {text : String} {right : RightSide} (h : word text = .ok right) :
    (∃ v, right = .literal v ∧ IsConstant v) ∨
      right = .path text ∧ text ∉ constantNames ∧ (KeyPath.segments? text).isSome = true := by
  rw [word.eq_def] at h
  split at h
  · cases h
    exact .inl ⟨_, rfl, .bool true⟩
  · cases h
    exact .inl ⟨_, rfl, .bool true⟩
  · cases h
    exact .inl ⟨_, rfl, .bool false⟩
  · cases h
    exact .inl ⟨_, rfl, .bool false⟩
  · cases h
    exact .inl ⟨_, rfl, .null⟩
  · cases h
    exact .inl ⟨_, rfl, .null⟩
  · cases hpath : checkedPath text with
    | error fault =>
      rw [hpath] at h
      cases h
    | ok path =>
      obtain ⟨rfl, hsome⟩ := checkedPath_ok hpath
      rw [hpath] at h
      cases h
      refine .inr ⟨rfl, ?_, hsome⟩
      simp_all [constantNames]

/-- A right side is a constant, or its text without the blanks around it is a key path. -/
theorem parse_ok {text : List Char} {right : RightSide} (h : parse text = .ok right) :
    (∃ v, right = .literal v ∧ IsConstant v) ∨
      right = .path (String.ofList (trim text)) ∧ IsName (String.ofList (trim text)) ∧
        (KeyPath.segments? (String.ofList (trim text))).isSome = true := by
  rw [parse] at h
  split at h
  · cases h
    exact .inl ⟨_, rfl, .string ""⟩
  · rename_i c rest htrim
    split at h
    · cases h
      exact .inl ⟨_, rfl, .string _⟩
    · rename_i hquote
      split at h
      · rw [number] at h
        split at h
        · rename_i n hn
          cases h
          exact .inl ⟨_, rfl, .number (Number.isReadable_of_ofChars? hn)⟩
        · cases h
      · rename_i hnumber
        split at h
        · rw [propertyList] at h
          split at h
          · rename_i v hv
            cases h
            exact .inl ⟨v, rfl, isConstant_of_printable (PropertyList.printable_of_parse hv)⟩
          · cases h
        · -- The first character begins no literal, which is what makes the text a name.
          rename_i hbracket
          rw [htrim]
          rcases word_ok h with hconstant | ⟨hpath, hname, hsome⟩
          · exact .inl hconstant
          · refine .inr ⟨hpath, ⟨?_, hname⟩, hsome⟩
            rw [String.toList_ofList]
            rintro d ⟨⟩
            simp_all

/-! ## What is read back -/

/-- A character inside the quotes of a constant. -/
def escape (c : Char) : List Char := if c = '\\' ∨ c = '"' then ['\\', c] else [c]

theorem literal_string (s : String) :
    (Action.literal (.string s)).toList = '"' :: (s.toList.flatMap escape ++ ['"']) := by
  simp [Action.literal]
  rfl

theorem length_le_length_escape (cs : List Char) : cs.length ≤ (cs.flatMap escape).length := by
  induction cs with
  | nil => exact Nat.le_refl 0
  | cons c cs ih =>
    have hc : 0 < (escape c).length := by
      rw [escape]
      split <;> simp
    rw [List.flatMap_cons, List.length_append, List.length_cons]
    omega

/-- A text is its own escaped form if and only if nothing in it is escaped. -/
theorem flatMap_escape_iff (cs : List Char) : cs.flatMap escape = cs ↔ '"' ∉ cs ∧ '\\' ∉ cs := by
  induction cs with
  | nil => simp
  | cons c cs ih =>
    rw [List.flatMap_cons]
    by_cases hc : c = '\\' ∨ c = '"'
    · have hlonger := length_le_length_escape cs
      have hmem : ¬('"' ∉ c :: cs ∧ '\\' ∉ c :: cs) := by
        rcases hc with rfl | rfl <;> simp
      refine iff_of_false (fun heq => ?_) hmem
      have hlength := congrArg List.length heq
      simp only [escape, if_pos hc, List.length_append, List.length_cons,
        List.length_nil] at hlength
      omega
    · obtain ⟨hslash, hquote⟩ := not_or.1 hc
      simp [escape, if_neg hc, ih, Ne.symm hslash, Ne.symm hquote]

/-- A text between quotes is a string as it stands. -/
theorem parse_quoted {quote : Char} (hquote : quote = '"' ∨ quote = '\'') (cs : List Char) :
    parse (quote :: (cs ++ [quote])) = .ok (.literal (.string (String.ofList cs))) := by
  have hblank : isBlank quote = false := by
    rcases hquote with rfl | rfl <;> decide
  have hends : Solid [quote] := .of_no_blank (by simp) (by simpa using hblank)
  have htrim : trim (quote :: (cs ++ [quote])) = quote :: (cs ++ [quote]) :=
    (hends.append hends cs).trim_eq
  rw [parse, htrim]
  simp [unquote, hquote]

/-- A string is read with its escapes. -/
theorem parse_string (s : String) : parse (Action.literal (.string s)).toList =
    .ok (.literal (.string (String.ofList (s.toList.flatMap escape)))) := by
  rw [literal_string]
  exact parse_quoted (.inl rfl) (s.toList.flatMap escape)

theorem parse_number {n : Number} (hn : n.IsReadable) :
    parse (Action.literal (.number n)).toList = .ok (.literal (.number n)) := by
  obtain ⟨c, rest, hchars, hfirst, _⟩ := n.chars_begins
  have hquote := not_quote_of_isDigit hfirst
  have hread := Number.ofChars?_chars hn
  rw [Action.literal, Number.text, String.toList_ofList, parse, n.chars_solid.trim_eq, hchars]
  rw [hchars] at hread
  simp only [if_neg hquote, if_pos hfirst, number, hread]

/-- A list and an object begin and end with their brackets. -/
theorem exists_brackets {v : Value}
    (hv : (∃ items, v = .array items) ∨ ∃ members, v = .object members) :
    ∃ c between d, (PropertyList.text v).toList = [c] ++ (between ++ [d]) ∧
      (c = '\x7b' ∨ c = '(') ∧ Solid ([c] ++ (between ++ [d])) := by
  have hsolid : ∀ c, isBlank c = false → Solid [c] := fun c hc =>
    .of_no_blank (by simp) (by simpa using hc)
  rcases hv with ⟨items, rfl⟩ | ⟨members, rfl⟩
  · refine ⟨'(', ' ' :: ((join ", " (PropertyList.itemTexts items)).toList ++ [' ']), ')', ?_,
      .inr rfl, (hsolid '(' (by decide)).append (hsolid ')' (by decide)) _⟩
    simp [PropertyList.text]
  · refine ⟨'\x7b', ' ' :: (PropertyList.memberTexts members).toList, '\x7d', ?_, .inl rfl,
      (hsolid '\x7b' (by decide)).append (hsolid '\x7d' (by decide)) _⟩
    simp [PropertyList.text]

/-- What begins with an opening bracket is read as a property list. -/
theorem parse_bracket {c : Char} {cs : List Char} (hc : c = '\x7b' ∨ c = '(')
    (hsolid : Solid (c :: cs)) : parse (c :: cs) = propertyList (c :: cs) := by
  rw [parse, hsolid.trim_eq]
  rcases hc with rfl | rfl <;> rfl

theorem parse_collection {v : Value} (hv : PropertyList.Printable v)
    (hcollection : (∃ items, v = .array items) ∨ ∃ members, v = .object members) :
    parse (PropertyList.text v).toList = .ok (.literal v) := by
  obtain ⟨c, between, d, htext, hc, hsolid⟩ := exists_brackets hcollection
  have hread := PropertyList.parse_text hv
  rw [htext] at hread ⊢
  rw [List.singleton_append] at hread hsolid ⊢
  rw [parse_bracket hc hsolid, propertyList, hread]

/-- A constant is read back, if no sign in it had to be escaped. -/
theorem parse_literal {v : Value} (h : IsConstant v) (hs : ∀ s, v = .string s → IsUnescaped s) :
    parse (Action.literal v).toList = .ok (.literal v) := by
  cases h with
  | null => rfl
  | bool holds => cases holds <;> rfl
  | string s => rw [parse_string, (flatMap_escape_iff _).2 (hs s rfl), String.ofList_toList]
  | number hn => exact parse_number hn
  | array h => exact parse_collection h (.inl ⟨_, rfl⟩)
  | object h => exact parse_collection h (.inr ⟨_, rfl⟩)

/-- A word that names no constant is a key path. -/
theorem word_eq_path {text : String} (h : text ∉ constantNames) :
    word text = (checkedPath text).map .path := by
  simp only [constantNames, List.mem_cons, List.not_mem_nil, or_false, not_or] at h
  rw [word.eq_def]
  split
  · exact absurd rfl h.1
  · exact absurd rfl h.2.1
  · exact absurd rfl h.2.2.1
  · exact absurd rfl h.2.2.2.1
  · exact absurd rfl h.2.2.2.2.1
  · exact absurd rfl h.2.2.2.2.2
  · rfl

theorem word_ne_literal {text : String} (h : text ∉ constantNames) (v : Value) :
    word text ≠ .ok (.literal v) := by
  rw [word_eq_path h]
  cases checkedPath text <;> rintro ⟨⟩

/-- A key path that looks like no literal is read back. -/
theorem parse_name {path : String} (hname : IsName path) (hsolid : Solid path.toList)
    (hsome : (KeyPath.segments? path).isSome = true) : parse path.toList = .ok (.path path) := by
  have hword : word path = .ok (.path path) := by
    rw [word_eq_path hname.noConstant, checkedPath, if_pos hsome]
    rfl
  rw [parse, hsolid.trim_eq]
  cases hlist : path.toList with
  | nil => exact absurd hlist hsolid.nonempty
  | cons c rest =>
    obtain ⟨hdigit, hsign⟩ := hname.first c (by rw [hlist]; rfl)
    simp only [List.mem_cons, List.not_mem_nil, or_false, not_or] at hsign
    obtain ⟨hdouble, hsingle, hminus, hbrace, hparen⟩ := hsign
    have hback : String.ofList (c :: rest) = path := by
      rw [← hlist, String.ofList_toList]
    simp only [hdouble, hsingle, hminus, hbrace, hparen, hdigit, or_self, if_false, hback, hword,
      Bool.false_eq_true]

/-! ## The text around a literal -/

/-- A literal has no blanks at its ends. -/
theorem literal_solid {v : Value} (h : IsConstant v) : Solid (Action.literal v).toList := by
  cases h with
  | null => exact .of_no_blank (by decide) (by decide)
  | bool holds => cases holds <;> exact .of_no_blank (by decide) (by decide)
  | string s =>
    have hquote : Solid ['"'] := .of_no_blank (by decide) (by decide)
    rw [literal_string]
    simpa using hquote.append hquote (s.toList.flatMap escape)
  | @number n hn => simpa [Action.literal, Number.text] using n.chars_solid
  | array h =>
    obtain ⟨c, between, d, htext, _, hsolid⟩ := exists_brackets (.inl ⟨_, rfl⟩)
    show Solid (PropertyList.text (.array _)).toList
    rwa [htext]
  | object h =>
    obtain ⟨c, between, d, htext, _, hsolid⟩ := exists_brackets (.inr ⟨_, rfl⟩)
    show Solid (PropertyList.text (.object _)).toList
    rwa [htext]

/-- The search for a semicolon passes over a literal. -/
theorem literal_passes {v : Value} (h : IsConstant v) (depth : Nat) :
    Passes true [';'] (outside depth) (Action.literal v).toList (outside depth) := by
  cases h with
  | null => exact PropertyList.passes_of_signs (by decide) depth
  | bool holds => cases holds <;> exact PropertyList.passes_of_signs (by decide) depth
  | string s =>
    rw [literal_string]
    refine .quoted rfl (fun c => ?_) s.toList depth
    by_cases hc : c = '\\' ∨ c = '"'
    · exact .inl ⟨c, if_pos hc⟩
    · exact .inr ⟨if_neg hc, fun h => hc (.inl h), fun h => hc (.inr h)⟩
  | @number n hn => exact PropertyList.number_passes n depth
  | array h => exact h.text_passes depth
  | object h => exact h.text_passes depth

end RankedRules.RightSide
