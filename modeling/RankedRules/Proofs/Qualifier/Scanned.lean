/-
The search for the arrow of a rule passes over qualifiers.

No operator is an arrow where it is written with a blank behind it, strings are quoted with their
quotes escaped, and nothing else in the canonical text of a condition begins like an arrow.

* `Qualifier.arrow` — the arrow;
* `Qualifier.WellFormed.text_passes` — the canonical text is passed over;
* `Qualifier.WellFormed.text_solid`, `Qualifier.WellFormed.length_text` — it has no blanks at its
  ends and is long enough to stand in front of an arrow.
-/
import RankedRules.Proofs.Qualifier.Parsed
import RankedRules.Proofs.Text.Passing

namespace RankedRules.Qualifier

open Scan

/-- The arrow behind the qualifier of a rule. -/
abbrev arrow : List Char := ['=', '>']

/-- What contains no quotes and no equals signs is passed over. -/
theorem passes_of_signs {cs : List Char} (h : ∀ c ∈ cs, c ≠ '"' ∧ c ≠ '\'' ∧ c ≠ '=') :
    Passes false arrow (outside 0) cs (outside 0) := by
  refine .of_plain (fun c hc => ?_) 0
  obtain ⟨hdouble, hsingle, harrow⟩ := h c hc
  refine ⟨⟨?_, rfl, rfl⟩, harrow.symm⟩
  rw [isQuote, decide_eq_false hdouble, decide_eq_false hsingle]
  rfl

theorem key_passes {key : String} (hkey : IsKeyPath key) :
    Passes false arrow (outside 0) key.toList (outside 0) := by
  refine passes_of_signs fun c hc => ?_
  have hc := hkey.chars c hc
  refine ⟨?_, ?_, ?_⟩
  all_goals
    rintro rfl
    revert hc
    decide +kernel

/-- An operator with a blank behind it is no arrow. -/
theorem symbol_passes (op : Operator) :
    Passes false arrow (outside 0) (op.symbol.toList ++ [' ']) (outside 0) := by
  have hequals : Passes false arrow (outside 0) ['=', ' '] (outside 0) := by
    intro rest
    cases hcut : cutFrom? false arrow (outside 0) rest <;>
      simp [cutFrom?, isFree, isQuote, State.next, arrow, List.isPrefixOf, hcut]
  have hplain : ∀ cs, (∀ c ∈ cs, c ≠ '"' ∧ c ≠ '\'' ∧ c ≠ '=') →
      Passes false arrow (outside 0) (cs ++ ['=', ' ']) (outside 0) := fun cs hcs =>
    (passes_of_signs hcs).append hequals
  cases op with
  | equal => exact hequals
  | notEqual => exact hplain ['!'] (by decide)
  | less => exact passes_of_signs (by decide)
  | greater => exact passes_of_signs (by decide)
  | lessOrEqual => exact hplain ['<'] (by decide)
  | greaterOrEqual => exact hplain ['>'] (by decide)
  | like => exact passes_of_signs (by decide)
  | likeFolded => exact passes_of_signs (by decide)

theorem ne_of_isScientificChar {c d : Char} (h : Decimal.isScientificChar c = true)
    (hd : Decimal.isScientificChar d = false) : c ≠ d := by
  rintro rfl
  rw [h] at hd
  cases hd

theorem literal_passes {v : Value} (h : IsLiteral v) :
    Passes false arrow (outside 0) (literal v).toList (outside 0) := by
  cases h with
  | null => exact passes_of_signs (by decide)
  | bool holds => cases holds <;> exact passes_of_signs (by decide)
  | @number n hn =>
    refine passes_of_signs fun c hc => ?_
    have hc' : Decimal.isScientificChar c = true :=
      Number.isScientificChar_of_mem_chars (n := n) (by
        simpa [literal, Value.json, Number.text] using hc)
    exact ⟨ne_of_isScientificChar hc' (by decide), ne_of_isScientificChar hc' (by decide),
      ne_of_isScientificChar hc' (by decide)⟩
  | string text =>
    have hescape : ∀ c : Char,
        (∃ d, (if c = '\\' ∨ c = '\'' then ['\\', c] else [c]) = ['\\', d]) ∨
          (if c = '\\' ∨ c = '\'' then ['\\', c] else [c]) = [c] ∧ c ≠ '\\' ∧ c ≠ '\'' := by
      intro c
      by_cases hc : c = '\\' ∨ c = '\''
      · exact .inl ⟨c, if_pos hc⟩
      · exact .inr ⟨if_neg hc, fun h => hc (.inl h), fun h => hc (.inr h)⟩
    have hquoted : Passes false arrow (outside 0) _ (outside 0) :=
      .quoted (show isQuote '\'' = true from rfl) hescape text.toList 0
    simpa [literal] using hquoted

theorem texts_passes (connective : Connective) {members : List Qualifier}
    (h : ∀ q ∈ members, Passes false arrow (outside 0) q.text.toList (outside 0)) :
    Passes false arrow (outside 0)
      (Text.join (" " ++ connective.word ++ " ") (texts members)).toList (outside 0) := by
  induction members with
  | nil => exact .nil _
  | cons q others ih =>
    have hq := h q List.mem_cons_self
    cases others with
    | nil => exact hq
    | cons next others =>
      have hothers := ih fun p hp => h p (List.mem_cons_of_mem q hp)
      have hword : Passes false arrow (outside 0) (" " ++ connective.word ++ " ").toList
          (outside 0) := by
        cases connective <;> exact passes_of_signs (by decide)
      have hall := (hq.append hword).append hothers
      simpa [texts, Text.join] using hall

/-- The search for the arrow passes over the canonical text of a condition. -/
theorem WellFormed.text_passes {q : Qualifier} (h : q.WellFormed IsLiteral) :
    Passes false arrow (outside 0) q.text.toList (outside 0) := by
  have hblank : Passes false arrow (outside 0) [' '] (outside 0) := passes_of_signs (by decide)
  induction h with
  | constant holds => cases holds <;> exact passes_of_signs (by decide)
  | compare op hpath hvalue =>
    have hall := (((key_passes hpath.toIsKeyPath).append hblank).append (symbol_passes op)).append
      (literal_passes hvalue)
    simpa [text] using hall
  | compareKeys op hleft hright =>
    have hall := (((key_passes hleft.toIsKeyPath).append hblank).append (symbol_passes op)).append
      (key_passes hright.toIsKeyPath)
    simpa [text] using hall
  | not hinner ih =>
    have hword : Passes false arrow (outside 0) "NOT ".toList (outside 0) :=
      passes_of_signs (by decide)
    simpa [text] using hword.append ih
  | compound connective hcount hmembers ih =>
    have hopening : Passes false arrow (outside 0) ['('] (outside 0) :=
      passes_of_signs (by decide)
    have hclosing : Passes false arrow (outside 0) [')'] (outside 0) :=
      passes_of_signs (by decide)
    have hall := (hopening.append (texts_passes connective ih)).append hclosing
    simpa [text] using hall

/-! ## The ends of the text -/

theorem key_solid {key : String} (hkey : IsKeyPath key) : Text.Solid key.toList :=
  .of_no_blank hkey.nonempty fun c hc => isBlank_of_isKeyChar (hkey.chars c hc)

theorem literal_solid {v : Value} (h : IsLiteral v) : Text.Solid (literal v).toList := by
  cases h with
  | null => exact .of_no_blank (by decide) (by decide)
  | bool holds => cases holds <;> exact .of_no_blank (by decide) (by decide)
  | @number n hn =>
    simpa [literal, Value.json, Number.text] using n.chars_solid
  | string text =>
    have hquote : Text.Solid ['\''] := .of_no_blank (by decide) (by decide)
    simpa [literal] using hquote.append hquote _

/-- The canonical text of a condition has no blanks at its ends. -/
theorem WellFormed.text_solid {q : Qualifier} (h : q.WellFormed IsLiteral) :
    Text.Solid q.text.toList := by
  induction h with
  | constant holds => cases holds <;> exact .of_no_blank (by decide) (by decide)
  | compare op hpath hvalue =>
    simpa [text] using (key_solid hpath.toIsKeyPath).append (literal_solid hvalue)
      (' ' :: (op.symbol.toList ++ [' ']))
  | compareKeys op hleft hright =>
    simpa [text] using (key_solid hleft.toIsKeyPath).append (key_solid hright.toIsKeyPath)
      (' ' :: (op.symbol.toList ++ [' ']))
  | not hinner ih =>
    have hword : Text.Solid "NOT".toList := .of_no_blank (by decide) (by decide)
    simpa [text] using hword.append ih [' ']
  | compound connective hcount hmembers ih =>
    have hopening : Text.Solid ['('] := .of_no_blank (by decide) (by decide)
    have hclosing : Text.Solid [')'] := .of_no_blank (by decide) (by decide)
    simpa [text] using hopening.append hclosing _

theorem WellFormed.length_text {q : Qualifier} (h : q.WellFormed IsLiteral) :
    2 ≤ q.text.toList.length := by
  cases h with
  | constant holds => cases holds <;> decide
  | compare op hpath hvalue =>
    simp only [text, String.toList_append, List.length_append]
    have hblank : " ".toList.length = 1 := rfl
    omega
  | compareKeys op hleft hright =>
    simp only [text, String.toList_append, List.length_append]
    have hblank : " ".toList.length = 1 := rfl
    omega
  | not hinner =>
    simp only [text, String.toList_append, List.length_append]
    have hword : "NOT ".toList.length = 4 := rfl
    omega
  | compound connective hcount hmembers =>
    simp only [text, String.toList_append, List.length_append]
    have hopening : "(".toList.length = 1 := rfl
    have hclosing : ")".toList.length = 1 := rfl
    omega

end RankedRules.Qualifier
