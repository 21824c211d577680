/-
Literals on both sides of a rule.

The right side of a comparison and the right side of an assignment are read by two parsers. What
the one takes for a literal the other takes for a literal, too, and numbers and words mean the same.
Strings do not: a condition takes out the backslashes that keep quotes from closing a string, and an
assignment takes the text between the quotes as it stands. So the values differ as soon as there is
a backslash, and a rule does not fulfil the condition that is written with its own right side.

* `Qualifier.unescaped_eq_iff` — which texts are the same without their escapes;
* `Qualifier.OnBothSides`, `Qualifier.operand_literal` — a literal in a condition as the right side
  of an assignment;
* `Rule.parse_assignment` — a rule that always assigns such a literal to a key;
* `Rule.literal_on_both_sides` — the two values, and the condition in a context over the rule.
-/
import RankedRules.Proofs.Operator.Order
import RankedRules.Proofs.Qualifier.Numbers
import RankedRules.Proofs.Query.Supplied
import RankedRules.Proofs.Rule.Literal

namespace RankedRules

open Scan Text

namespace Qualifier

variable {quote : Char} {cs token rest : List Char} {v w : Value}

/-! ## Strings -/

theorem length_unescaped_le (cs : List Char) : (unescaped cs).length ≤ cs.length := by
  induction cs using unescaped.induct with
  | case1 => exact Nat.le_refl 0
  | case2 => exact Nat.zero_le 1
  | case3 c rest ih =>
    rw [unescaped, List.length_cons, List.length_cons, List.length_cons]
    omega
  | case4 c rest _ _ ih =>
    rw [unescaped, List.length_cons, List.length_cons]
    · omega
    · assumption
    · assumption

/-- Only a text without backslashes is the same without its escapes. -/
theorem unescaped_eq_iff (cs : List Char) : unescaped cs = cs ↔ '\\' ∉ cs := by
  induction cs with
  | nil => exact iff_of_true rfl List.not_mem_nil
  | cons c cs ih =>
    by_cases hc : c = '\\'
    · subst hc
      refine iff_of_false (fun heq => ?_) fun hnot => hnot List.mem_cons_self
      have hlength := congrArg List.length heq
      cases cs with
      | nil => cases heq
      | cons d cs =>
        have hle := length_unescaped_le cs
        rw [unescaped, List.length_cons, List.length_cons, List.length_cons] at hlength
        omega
    · rw [unescaped_cons hc, List.cons_inj_right, ih, List.mem_cons, not_or]
      exact ⟨fun hcs => ⟨Ne.symm hc, hcs⟩, And.right⟩

/-- A constant without the escapes in it, if it is a string. -/
def withoutEscapes : Value → Value
  | .string s => .string (String.ofList (unescaped s.toList))
  | value => value

/-! ## Literals -/

/-- The text of a literal whose value in a condition is `v`, and on the right side of an assignment
`w`. -/
structure OnBothSides (text : List Char) (v w : Value) : Prop where
  solid : Solid text
  parse : RightSide.parse text = .ok (.literal w)
  value : v = withoutEscapes w
  same_iff : w = v ↔ '\\' ∉ text

theorem onBothSides_string (hquote : quote = '"' ∨ quote = '\'') (raw : List Char) :
    OnBothSides (quote :: (raw ++ [quote])) (.string (String.ofList (unescaped raw)))
      (.string (String.ofList raw)) := by
  have hblank : isBlank quote = false := by
    rcases hquote with rfl | rfl <;> decide
  have hends : Solid [quote] := .of_no_blank (by simp) (by simpa using hblank)
  refine ⟨hends.append hends raw, RightSide.parse_quoted hquote raw, ?_, ?_⟩
  · rw [withoutEscapes, String.toList_ofList]
  · rw [Value.string.injEq, String.ofList_inj, eq_comm, unescaped_eq_iff]
    simp [(ne_slash_of_quote hquote).symm]

theorem onBothSides_number {n : Number}
    (hfirst : ∀ c ∈ cs.head?, ¬(c = '"' ∨ c = '\'') ∧ (c.isDigit = true ∨ c = '-'))
    (hclass : ∀ c ∈ cs, (c.isDigit || c = '.' || c = '-') = true)
    (hn : Number.ofChars? cs = some n) : OnBothSides cs (.number n) (.number n) := by
  cases cs with
  | nil =>
    have hnone : Number.ofChars? [] = none := by decide
    rw [hnone] at hn
    cases hn
  | cons c cs =>
    obtain ⟨hquote, hnumber⟩ := hfirst c rfl
    have hblank : ∀ d ∈ c :: cs, isBlank d = false := by
      intro d hd
      have hd := hclass d hd
      simp only [Bool.or_eq_true, decide_eq_true_eq] at hd
      obtain (hdigit | rfl) | rfl := hd
      · exact isBlank_of_isDigit hdigit
      · decide
      · decide
    have hsolid : Solid (c :: cs) := .of_no_blank (by simp) hblank
    refine ⟨hsolid, ?_, rfl, iff_of_true rfl fun hmem => nomatch hclass _ hmem⟩
    rw [RightSide.parse, hsolid.trim_eq]
    simp only [if_neg hquote, if_pos hnumber, RightSide.number, hn]

/-- A word that is a constant in a condition is the same constant in an assignment. -/
theorem onBothSides_word {word : String} (hkey : IsKeyPath word)
    (h : wordOperand word = .literal v) : OnBothSides word.toList v v := by
  have hread : RightSide.parse word.toList = .ok (.literal v) ∧ v = withoutEscapes v := by
    rw [wordOperand.eq_def] at h
    split at h
    all_goals first
      | cases h
        exact ⟨rfl, rfl⟩
      | cases h
  refine ⟨key_solid hkey, hread.1, hread.2, iff_of_true rfl fun hmem => ?_⟩
  have hslash : isKeyChar '\\' = false := by decide +kernel
  rw [hkey.chars _ hmem] at hslash
  cases hslash

/-- A literal in a condition stands behind blanks, and its text is a literal on the right side of an
assignment, too. -/
theorem operand_literal (h : operand token = .ok (.literal v, rest)) :
    ∃ front text w, Blanks front ∧ token = front ++ (text ++ rest) ∧ OnBothSides text v w := by
  obtain ⟨front, hfront, htoken⟩ := exists_trimStart token
  have htrim := trimStart_trimStart token
  simp only [operand] at h
  generalize trimStart token = cs at h htoken htrim
  subst htoken
  split at h
  · cases h
  · rename_i c cs
    split at h
    · rename_i hquote
      split at h
      · cases h
        rename_i hread
        obtain ⟨raw, rfl, rfl, -⟩ := exists_raw (ne_slash_of_quote hquote) hread
        exact ⟨front, _, _, hfront, by simp, onBothSides_string hquote raw⟩
      · cases h
    · rename_i hquote
      split at h
      · rename_i hnumber
        split at h
        · cases h
          rename_i hn
          obtain ⟨hbegins, hclass⟩ := numberChars_begins (c :: cs)
          refine ⟨front, numberChars (c :: cs), _, hfront, ?_, onBothSides_number ?_ hclass hn⟩
          · exact congrArg (front ++ ·) (List.prefix_iff_eq_append.1 hbegins).symm
          · intro d hd
            obtain ⟨digits, hdigits⟩ := List.head?_eq_some_iff.1 hd
            rw [hdigits] at hbegins
            obtain ⟨rfl, -⟩ := List.cons_prefix_cons.1 hbegins
            exact ⟨hquote, hnumber⟩
        · cases h
      · obtain ⟨⟨word, behind⟩, hread, h⟩ := bind_eq_ok_iff.1 h
        obtain ⟨hkey, hword, -⟩ := keyPath_ok hread
        rw [htrim] at hword
        injection h with h
        obtain ⟨hvalue, rfl⟩ := Prod.mk.injEq .. ▸ h
        exact ⟨front, word.toList, v, hfront, by rw [hword], onBothSides_word hkey hvalue⟩

/-- A whole text that is a literal in a condition. -/
theorem parse_literal (h : operand token = .ok (.literal v, rest)) (hrest : Blanks rest) :
    ∃ w, RightSide.parse token = .ok (.literal w) ∧ v = withoutEscapes w ∧
      (w = v ↔ '\\' ∉ token) := by
  obtain ⟨front, text, w, hfront, rfl, hsides⟩ := operand_literal h
  have htrim : trim (front ++ (text ++ rest)) = text := by
    rw [trim_append hfront hrest, hsides.solid.trim_eq]
  have hparse : RightSide.parse (front ++ (text ++ rest)) = .ok (.literal w) := by
    rw [← hsides.parse, RightSide.parse, RightSide.parse, htrim, hsides.solid.trim_eq]
  have hnot : ∀ blanks, Blanks blanks → '\\' ∉ blanks := fun blanks hblanks hmem =>
    absurd (hblanks _ hmem) (by decide)
  refine ⟨w, hparse, hsides.value, hsides.same_iff.trans ?_⟩
  simp [hnot front hfront, hnot rest hrest]

end Qualifier

/-! ## The rule -/

/-- A key path can be the key of an assignment. -/
theorem Action.isKey_of_isKeyPath {key : String} (hkey : Qualifier.IsKeyPath key) : IsKey key := by
  have hsettled : Settled false '=' 0 key.toList :=
    Qualifier.settled_of_class (by decide +kernel) hkey.chars
  have hstate : ({} : State).after false key.toList = {} := hsettled.state
  exact ⟨Qualifier.key_solid hkey, hsettled.noFree, by rw [hstate]⟩

open Qualifier in
/-- A literal of a condition can stand on the right side of a rule that always assigns it. -/
theorem Rule.parse_assignment {key : String} {token rest : List Char} {v w : Value}
    (hkey : IsKeyPath key) (h : operand token = .ok (.literal v, rest)) (hrest : Blanks rest)
    (hw : RightSide.parse token = .ok (.literal w)) :
    Rule.parse ("*true* => ".toList ++ (key.toList ++ (" = ".toList ++ token))) =
      .ok (Context.constantRule key w Priority.normal) := by
  have hcast : key.toList.head? ≠ some '(' := fun hhead => by
    have hparen : isKeyChar '(' = false := by decide +kernel
    rw [hkey.chars '(' (List.mem_of_mem_head? hhead)] at hparen
    cases hparen
  have haction : Action.parse ([' '] ++ (key.toList ++ ' ' :: '=' :: ' ' :: token)) none =
      .ok (.assign key w) := by
    have htrim : trim (' ' :: token) = trim token := by
      simpa using trim_append Gap.blank.blanks .nil token
    rw [Action.parse_append (Action.isKey_of_isKeyPath hkey) hcast Gap.blank.blanks, htrim,
      Action.ofSides, RightSide.parse, trim_trim, ← RightSide.parse, hw]
    rfl
  -- No semicolon ends the action, since the literal closes its quotes.
  have hcut : cut? true [';'] ([' '] ++ (key.toList ++ ' ' :: '=' :: ' ' :: token)) = none := by
    obtain ⟨front, rfl, hfront, -⟩ := operand_takes h
    have htoken : Settled false ';' 0 (front ++ rest) := hfront.append (.of_blanks (by decide) hrest)
    have hname : Settled false ';' 0 key.toList := settled_of_class (by decide +kernel) hkey.chars
    have hsigns : ∀ signs, (∀ c ∈ signs, (c = ' ' || c = '=') = true) →
        Settled false ';' 0 signs := fun signs hclass => settled_of_class (by decide) hclass
    have hall := (hsigns [' '] (by decide)).append
      (hname.append ((hsigns [' ', '=', ' '] (by decide)).append htoken))
    exact hall.noFree.respectNesting.cutFrom?_eq_none
  have hright : Rule.parseRight ([' '] ++ (key.toList ++ ' ' :: '=' :: ' ' :: token)) =
      .ok (.assign key w, Priority.normal) := by
    rw [Rule.parseRight, hcut]
    show (Action.parse _ none).bind _ = _
    rw [haction]
    rfl
  have hrule := Rule.parse_always ([' '] ++ (key.toList ++ ' ' :: '=' :: ' ' :: token))
  rw [hright] at hrule
  exact hrule

namespace Operator

/-- A value is equal to a literal without escapes if it has none, null included. -/
theorem equal_withoutEscapes_iff (w : Value) :
    equal.compare w.present (some (Qualifier.withoutEscapes w)) = true ↔
      w = Qualifier.withoutEscapes w := by
  rw [equal_iff]
  cases w with
  | null => exact iff_of_true rfl rfl
  | string s => simp [Qualifier.withoutEscapes, Value.present, Value.isNull, measure,
      Value.canonical]
  | bool holds => exact iff_of_true rfl rfl
  | number n => exact iff_of_true rfl rfl
  | array items => exact iff_of_true rfl rfl
  | object members => exact iff_of_true rfl rfl

end Operator

open Qualifier in
/-- What a condition takes for a literal an assignment takes for a literal, too: the same one, but
with the escapes in it if it is a string. So in a context over the rule that assigns the literal to
a key, the condition that the key has this value holds if there is no backslash in the text. -/
theorem Rule.literal_on_both_sides {key : String} {token rest : List Char} {v : Value}
    (hkey : IsLeftKey key) (hpoint : '.' ∉ key.toList)
    (h : operand token = .ok (.literal v, rest)) (hrest : Blanks rest) :
    ∃ w, RightSide.parse token = .ok (.literal w) ∧ v = withoutEscapes w ∧
      (w = v ↔ '\\' ∉ token) ∧
      Rule.parse ("*true* => ".toList ++ (key.toList ++ (" = ".toList ++ token))) =
        .ok (Context.constantRule key w Priority.normal) ∧
      Qualifier.parse (key.toList ++ (" = ".toList ++ token)) = .ok (.compare key .equal v) ∧
      (Qualifier.compare key .equal v).evaluate (Context.value
          { model := some ⟨[Context.constantRule key w Priority.normal]⟩ }) =
        .ok (decide ('\\' ∉ token)) := by
  obtain ⟨w, hw, hvalue, hsame⟩ := Qualifier.parse_literal h hrest
  have hsegments : KeyPath.segments? key = some [key] := by
    refine KeyPath.segments?_of_no_point hkey.chars ?_ hpoint
    rw [splitOn_of_notMem hpoint]
    simpa using hkey.nonempty
  have hpath : Lookup.path (Context.value
      { model := some ⟨[Context.constantRule key w Priority.normal]⟩ }) key = .ok w.present := by
    have hnonempty : key ≠ "" := KeyPath.ne_empty_of_mem hsegments List.mem_cons_self
    refine (Context.path_of_first hsegments
      (Context.present_of_constantRule w Priority.normal hnonempty)).trans ?_
    cases w <;> rfl
  have hcompare : Operator.equal.compare w.present (some v) = decide ('\\' ∉ token) := by
    rw [Bool.eq_iff_iff, decide_eq_true_iff, ← hsame, hvalue]
    exact Operator.equal_withoutEscapes_iff w
  refine ⟨w, hw, hvalue, hsame, Rule.parse_assignment hkey.toIsKeyPath h hrest hw,
    parse_comparison hkey .equal .blank .blank h hrest, ?_⟩
  rw [Qualifier.evaluate, hpath, ← hcompare]
  rfl

open Qualifier in
/-- Double quotes around a single one need no backslash, and single quotes do. -/
theorem Rule.literal_on_both_sides_quotes :
    (∃ w, RightSide.parse "\"it's\" ".toList = .ok (.literal w) ∧
      (Qualifier.compare "k" .equal (.string "it's")).evaluate (Context.value
        { model := some ⟨[Context.constantRule "k" w Priority.normal]⟩ }) = .ok true) ∧
    ∃ w, RightSide.parse "'it\\'s'".toList = .ok (.literal w) ∧
      (Qualifier.compare "k" .equal (.string "it's")).evaluate (Context.value
        { model := some ⟨[Context.constantRule "k" w Priority.normal]⟩ }) = .ok false := by
  have hkey : IsLeftKey "k" := by decide +kernel
  have hdouble : operand "\"it's\" ".toList = .ok (.literal (.string "it's"), [' ']) := rfl
  have hsingle : operand "'it\\'s'".toList = .ok (.literal (.string "it's"), []) := rfl
  obtain ⟨w, hw, -, -, -, -, hholds⟩ :=
    literal_on_both_sides hkey (by decide) hdouble (by simp [Blanks, isBlank])
  obtain ⟨w', hw', -, -, -, -, hholds'⟩ := literal_on_both_sides hkey (by decide) hsingle .nil
  exact ⟨⟨w, hw, hholds⟩, w', hw', hholds'⟩

/-- Not every literal is the same on both sides: the backslash in `'O\'Brien'` is a part of the
string that is assigned. -/
theorem Rule.not_same_on_both_sides : ¬∀ (token : List Char) (v w : Value),
    Qualifier.operand token = .ok (.literal v, []) →
      RightSide.parse token = .ok (.literal w) → w = v := by
  intro hall
  have hsame := hall "'O\\'Brien'".toList (.string "O'Brien") (.string "O\\'Brien") rfl rfl
  revert hsame
  rw [Value.string.injEq]
  decide

end RankedRules
