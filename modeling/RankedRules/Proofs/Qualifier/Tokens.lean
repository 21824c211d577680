/-
The tokens of qualifiers in front of any rest.

Every reader passes over the blanks in front of its token and then takes the longest run of the
characters that can belong to it. So it takes a token as a whole, and nothing behind it, if what
follows is not such a character: nothing, a blank or a closing parenthesis.

* `Qualifier.Delimited`, `Qualifier.IsWord` — what may follow a word or a number, and the words;
* `Qualifier.IsKeyPath`, `Qualifier.IsLeftKey`, `Qualifier.IsRightKey` — the texts of key paths, and
  of those that are read as such on the left and on the right side of a comparison;
* `keyword?_append`, `keyPath_append`, `operator_append`, `operand_string`, `operand_number`,
  `operand_word` — each token is read back with the rest behind it.
-/
import RankedRules.Proofs.Number.Printed
import RankedRules.Proofs.Text.Classes
import RankedRules.Proofs.Text.Trim
import RankedRules.Qualifier.Parser

namespace RankedRules.Qualifier

open Text

/-! ## Words -/

/-- No blank is part of a key. -/
theorem isKeyChar_of_isBlank {c : Char} (h : isBlank c = true) : isKeyChar c = false := by
  have hsign : ∀ d : Char, isBlank d = false → decide (c = d) = false := fun d hd =>
    decide_eq_false (ne_of_isBlank h hd)
  rw [isKeyChar, isAlphanumeric_of_isBlank h, hsign '_' (by decide), hsign '.' (by decide),
    hsign '@' (by decide), hsign '$' (by decide)]
  rfl

/-- What may follow a word or a number: nothing, a blank or a closing parenthesis. -/
def Delimited (rest : List Char) : Prop := ∀ c ∈ rest.head?, isBlank c = true ∨ c = ')'

theorem delimited_nil : Delimited [] := by
  rintro c ⟨⟩

theorem delimited_blank (rest : List Char) : Delimited (' ' :: rest) := by
  rintro c ⟨⟩
  exact .inl rfl

theorem delimited_closing (rest : List Char) : Delimited (')' :: rest) := by
  rintro c ⟨⟩
  exact .inr rfl

theorem Delimited.blanks_append {blanks rest : List Char} (h : Delimited rest)
    (hblanks : Blanks blanks) : Delimited (blanks ++ rest) := by
  cases blanks with
  | nil => exact h
  | cons b blanks =>
    rintro c ⟨⟩
    exact .inl (hblanks _ List.mem_cons_self)

theorem isKeyChar_of_delimited {rest : List Char} (h : Delimited rest) :
    ∀ c ∈ rest.head?, isKeyChar c = false := by
  intro c hc
  rcases h c hc with hblank | rfl
  · exact isKeyChar_of_isBlank hblank
  · decide +kernel

/-- A word in any letter case. -/
def IsWord (word : String) (cs : List Char) : Prop := cs.map Char.toUpper = word.toList

instance (word : String) (cs : List Char) : Decidable (IsWord word cs) :=
  inferInstanceAs (Decidable (_ = _))

theorem afterWord?_append {rest : List Char} (hrest : ∀ c ∈ rest.head?, isKeyChar c = false)
    (cs : List Char) : afterWord? (cs.map Char.toUpper) (cs ++ rest) = some rest := by
  induction cs with
  | nil =>
    cases rest with
    | nil => rfl
    | cons c rest =>
      have hc : isKeyChar c = false := hrest c rfl
      simp [afterWord?, hc]
  | cons c cs ih =>
    rw [List.map_cons, List.cons_append, afterWord?, if_pos rfl, ih]

/-- What begins with another letter than a word, in any case, is not the word. -/
theorem keyword?_eq_none {word : String} {w : Char} {ws : List Char} (hword : word.toList = w :: ws)
    {cs : List Char} (h : ∀ c ∈ (trimStart cs).head?, c.toUpper ≠ w) : keyword? word cs = none := by
  rw [keyword?, hword]
  cases hcs : trimStart cs with
  | nil => rfl
  | cons c rest =>
    have hc : c.toUpper ≠ w := h c (by rw [hcs]; rfl)
    rw [afterWord?, if_neg hc]

theorem keyword?_blanks {blanks : List Char} (h : Blanks blanks) (word : String) (cs : List Char) :
    keyword? word (blanks ++ cs) = keyword? word cs := by
  rw [keyword?, keyword?, trimStart_append_of_blank h]

/-- A word is no blank where it begins. -/
theorem trimStart_word {word : String} {cs : List Char} (hcs : IsWord word cs)
    (hword : ∀ w ∈ word.toList, isBlank w = false) (rest : List Char) (hne : cs ≠ []) :
    trimStart (cs ++ rest) = cs ++ rest := by
  cases cs with
  | nil => exact absurd rfl hne
  | cons c cs =>
    refine trimStart_of_not_blank ?_ _
    cases hc : isBlank c with
    | false => rfl
    | true =>
      -- The case of a blank does not change, so it would be a blank of the word itself.
      have hmem : c.toUpper ∈ word.toList := by
        rw [← hcs]
        exact List.mem_map_of_mem List.mem_cons_self
      rw [toUpper_of_isBlank hc] at hmem
      rw [← hc, hword c hmem]

/-- A word in any case is read behind blanks, if no character of a word follows. -/
theorem keyword?_append {word : String} {cs : List Char} (hcs : IsWord word cs)
    (hword : ∀ w ∈ word.toList, isBlank w = false) (hne : cs ≠ []) {blanks rest : List Char}
    (hblanks : Blanks blanks) (hrest : ∀ c ∈ rest.head?, isKeyChar c = false) :
    keyword? word (blanks ++ (cs ++ rest)) = some rest := by
  rw [keyword?_blanks hblanks, keyword?, trimStart_word hcs hword rest hne, ← hcs]
  exact afterWord?_append hrest cs

/-- A text of key characters that is not the word does not count as the word. -/
theorem afterWord?_eq_none {rest : List Char} (hrest : ∀ c ∈ rest.head?, isKeyChar c = false)
    {key word : List Char} (hkey : ∀ c ∈ key, isKeyChar c = true)
    (hword : ∀ c ∈ rest.head?, ∀ w ∈ word, c.toUpper ≠ w) (hne : key.map Char.toUpper ≠ word) :
    afterWord? word (key ++ rest) = none := by
  induction key generalizing word with
  | nil =>
    cases word with
    | nil => exact absurd rfl hne
    | cons w word =>
      cases rest with
      | nil => rfl
      | cons c rest =>
        have hc : c.toUpper ≠ w := hword c rfl w List.mem_cons_self
        rw [List.nil_append, afterWord?, if_neg hc]
  | cons c key ih =>
    cases word with
    | nil =>
      -- The word has ended, but another character of a key follows.
      have hc : isKeyChar c = true := hkey c List.mem_cons_self
      simp [afterWord?, hc]
    | cons w word =>
      rw [List.cons_append, afterWord?]
      split
      · rename_i hc
        refine ih (fun d hd => hkey d (List.mem_cons_of_mem c hd))
          (fun d hd v hv => hword d hd v (List.mem_cons_of_mem w hv)) fun heq => hne ?_
        rw [List.map_cons, hc, heq]
      · rfl

/-! ## Key paths -/

/-- A run of key characters without a point at its ends or two points together. -/
structure IsKeyPath (key : String) : Prop where
  nonempty : key.toList ≠ []
  chars : ∀ c ∈ key.toList, isKeyChar c = true
  noPointFirst : key.toList.head? ≠ some '.'
  noPointLast : key.toList.getLast? ≠ some '.'
  noTwoPoints : ¬['.', '.'] <:+: key.toList

/-- A key path that is read as such on the left side of a comparison: not the word `NOT`. -/
structure IsLeftKey (key : String) : Prop extends IsKeyPath key where
  noWord : ¬IsWord "NOT" key.toList

/-- A key path that is read as such on the right side of a comparison: neither the start of a
number nor the name of a constant. -/
structure IsRightKey (key : String) : Prop extends IsKeyPath key where
  noDigitFirst : ∀ c ∈ key.toList.head?, c.isDigit = false
  noConstant : key ∉ ["true", "false", "YES", "NO", "null", "nil"]

theorem hasEmptySegment_iff (cs : List Char) :
    hasEmptySegment cs = true ↔ ['.', '.'] <:+: cs := by
  induction cs with
  | nil => simp [hasEmptySegment]
  | cons c cs ih =>
    rw [List.infix_cons_iff, ← ih]
    cases cs with
    | nil => simp [hasEmptySegment]
    | cons d cs =>
      by_cases hc : c = '.' ∧ d = '.'
      · obtain ⟨rfl, rfl⟩ := hc
        simp [hasEmptySegment]
      · have hne : ¬['.', '.'] <+: c :: d :: cs := by
          simpa [eq_comm] using hc
        have hstep : hasEmptySegment (c :: d :: cs) = hasEmptySegment (d :: cs) := by
          rw [hasEmptySegment]
          rintro rest rfl hrest
          exact hc ⟨rfl, (List.cons.inj hrest).1⟩
        rw [hstep]
        simp [hne]

instance (key : String) : Decidable (IsKeyPath key) :=
  decidable_of_iff
    ((key.toList ≠ [] ∧ ∀ c ∈ key.toList, isKeyChar c = true) ∧ key.toList.head? ≠ some '.' ∧
      key.toList.getLast? ≠ some '.' ∧ ¬hasEmptySegment key.toList = true)
    (by
      rw [hasEmptySegment_iff]
      exact ⟨fun ⟨⟨h1, h2⟩, h3, h4, h5⟩ => ⟨h1, h2, h3, h4, h5⟩, fun ⟨h1, h2, h3, h4, h5⟩ =>
        ⟨⟨h1, h2⟩, h3, h4, h5⟩⟩)

instance (key : String) : Decidable (IsLeftKey key) :=
  decidable_of_iff (IsKeyPath key ∧ ¬IsWord "NOT" key.toList)
    ⟨fun ⟨h1, h2⟩ => ⟨h1, h2⟩, fun ⟨h1, h2⟩ => ⟨h1, h2⟩⟩

instance (key : String) : Decidable (IsRightKey key) :=
  decidable_of_iff
    (IsKeyPath key ∧ (∀ c ∈ key.toList.head?, c.isDigit = false) ∧
      key ∉ ["true", "false", "YES", "NO", "null", "nil"])
    ⟨fun ⟨h1, h2, h3⟩ => ⟨h1, h2, h3⟩, fun ⟨h1, h2, h3⟩ => ⟨h1, h2, h3⟩⟩

theorem isBlank_of_isKeyChar {c : Char} (h : isKeyChar c = true) : isBlank c = false := by
  cases hc : isBlank c with
  | false => rfl
  | true =>
    rw [isKeyChar_of_isBlank hc] at h
    cases h

variable {blanks rest : List Char}

/-- A key path is read behind blanks, up to where no character of a key follows. -/
theorem keyPath_append_of_stop {key : String} (hkey : IsKeyPath key) (hblanks : Blanks blanks)
    (hrest : ∀ c ∈ rest.head?, isKeyChar c = false) :
    keyPath (blanks ++ (key.toList ++ rest)) = .ok (key, rest) := by
  obtain ⟨htake, hdrop⟩ := takeWhile_append_of_stop hkey.chars hrest
  have htrim : trimStart (blanks ++ (key.toList ++ rest)) = key.toList ++ rest := by
    rw [trimStart_append_of_blank hblanks]
    cases hlist : key.toList with
    | nil => exact absurd hlist hkey.nonempty
    | cons c cs =>
      have hc : isKeyChar c = true := hkey.chars c (by simp [hlist])
      exact trimStart_of_not_blank (isBlank_of_isKeyChar hc) _
  have hwell : ¬(key.toList.head? = some '.' ∨ key.toList.getLast? = some '.' ∨
      hasEmptySegment key.toList = true) := by
    rw [hasEmptySegment_iff]
    rintro (hfirst | hlast | htwo)
    · exact hkey.noPointFirst hfirst
    · exact hkey.noPointLast hlast
    · exact hkey.noTwoPoints htwo
  simp only [keyPath, htrim, htake, hdrop]
  split
  · rename_i hnil
    exact absurd hnil hkey.nonempty
  · rw [if_neg hwell, String.ofList_toList]

theorem keyPath_append {key : String} (hkey : IsKeyPath key) (hblanks : Blanks blanks)
    (hrest : Delimited rest) : keyPath (blanks ++ (key.toList ++ rest)) = .ok (key, rest) :=
  keyPath_append_of_stop hkey hblanks (isKeyChar_of_delimited hrest)

/-! ## Operators -/

theorem isBlank_of_isOperatorSign {c : Char} (h : isOperatorSign c = true) : isBlank c = false := by
  simp only [isOperatorSign, Bool.or_eq_true, decide_eq_true_eq] at h
  rcases h with ((rfl | rfl) | rfl) | rfl <;> decide

theorem isOperatorSign_of_isAlpha {c : Char} (h : c.isAlpha = true) : isOperatorSign c = false := by
  cases hc : isOperatorSign c with
  | false => rfl
  | true =>
    simp only [isOperatorSign, Bool.or_eq_true, decide_eq_true_eq] at hc
    rcases hc with ((rfl | rfl) | rfl) | rfl <;> cases h

theorem symbol_ne_nil (op : Operator) : op.symbol.toList ≠ [] := by
  cases op <;> decide

/-- An operator is written with one or two signs or with letters. -/
theorem symbol_signs_or_letters (op : Operator) :
    ((∀ c ∈ op.symbol.toList, isOperatorSign c = true) ∧ op.symbol.toList.length ≤ 2) ∨
      ∀ c ∈ op.symbol.toList, c.isAlpha = true := by
  cases op <;> decide

/-- An operator is read behind blanks if a blank follows. -/
theorem operator_append (op : Operator) (hblanks : Blanks blanks)
    (hrest : ∃ b bs, rest = b :: bs ∧ isBlank b = true) :
    operator (blanks ++ (op.symbol.toList ++ rest)) = .ok (op, rest) := by
  obtain ⟨b, bs, rfl, hb⟩ := hrest
  have hread : (Operator.ofToken? (String.ofList op.symbol.toList)) = some op := by
    rw [String.ofList_toList, op.ofToken?_symbol]
  cases hsymbol : op.symbol.toList with
  | nil => exact absurd hsymbol (symbol_ne_nil op)
  | cons c cs =>
    have hcases := symbol_signs_or_letters op
    rw [hsymbol] at hread hcases
    have hnotBlank : isBlank c = false := by
      rcases hcases with ⟨hsigns, _⟩ | hletters
      · exact isBlank_of_isOperatorSign (hsigns c List.mem_cons_self)
      · exact isBlank_of_isAlpha (hletters c List.mem_cons_self)
    have htrim : trimStart (blanks ++ (c :: cs ++ b :: bs)) = c :: cs ++ b :: bs := by
      rw [trimStart_append_of_blank hblanks]
      exact trimStart_of_not_blank hnotBlank _
    rcases hcases with ⟨hsigns, hlength⟩ | hletters
    · -- The signs end at the blank, and there are not too many of them.
      have hstop : ∀ c ∈ (b :: bs).head?, isOperatorSign c = false := by
        rintro c ⟨⟩
        cases hc : isOperatorSign b with
        | false => rfl
        | true => rw [isBlank_of_isOperatorSign hc] at hb; cases hb
      have htoken : ((c :: cs ++ b :: bs).takeWhile isOperatorSign).take 2 = c :: cs := by
        rw [(takeWhile_append_of_stop hsigns hstop).1, List.take_of_length_le hlength]
      simp only [operator, htrim, htoken, hread, List.drop_left]
    · -- No signs, so that the letters up to the blank are the word.
      have hstop : ∀ c ∈ (b :: bs).head?, (c.isAlpha || decide (c = ':')) = false := by
        rintro c ⟨⟩
        have hcolon : decide (b = ':') = false := decide_eq_false (ne_of_isBlank hb (by decide))
        cases hc : b.isAlpha with
        | false => rw [hcolon]; rfl
        | true => rw [isBlank_of_isAlpha hc] at hb; cases hb
      have hnoSigns : ((c :: cs ++ b :: bs).takeWhile isOperatorSign).take 2 = [] := by
        simp [isOperatorSign_of_isAlpha (hletters c List.mem_cons_self)]
      have hword : ∀ d ∈ c :: cs, (d.isAlpha || decide (d = ':')) = true := fun d hd => by
        rw [hletters d hd]; rfl
      simp only [operator, htrim, hnoSigns, (takeWhile_append_of_stop hword hstop).1, hread,
        List.drop_left]

/-! ## Operands -/

/-- A string is read up to its closing quote, whatever follows. -/
theorem quotedChars?_append (rest cs : List Char) :
    quotedChars? '\'' ((cs.flatMap fun c =>
      if c = '\\' ∨ c = '\'' then ['\\', c] else [c]) ++ '\'' :: rest) = some (cs, rest) := by
  induction cs with
  | nil => rfl
  | cons c cs ih =>
    rw [List.flatMap_cons]
    split
    · rename_i hc
      simp only [List.cons_append, List.nil_append, quotedChars?, ih, Option.map_some]
    · rename_i hc
      have hquote : c ≠ '\'' := fun h => hc (.inr h)
      have hslash : c ≠ '\\' := fun h => hc (.inl h)
      simp [quotedChars?, ih, hquote, hslash]

theorem operand_string (text : String) (hblanks : Blanks blanks) :
    operand (blanks ++ ((literal (.string text)).toList ++ rest)) =
      .ok (.literal (.string text), rest) := by
  have hread := quotedChars?_append rest text.toList
  have htrim : trimStart (blanks ++ ((literal (.string text)).toList ++ rest)) =
      '\'' :: ((text.toList.flatMap fun c =>
        if c = '\\' ∨ c = '\'' then ['\\', c] else [c]) ++ '\'' :: rest) := by
    rw [trimStart_append_of_blank hblanks]
    simp [literal, trimStart, isBlank]
  simp only [operand, htrim, hread]
  simp

/-- A numeral is taken as far as its digits and points go. -/
theorem numberChars_append {cs : List Char} (h : Decimal.Begins Decimal.isPositionalChar cs)
    (hrest : ∀ c ∈ rest.head?, Decimal.isPositionalChar c = false) :
    numberChars (cs ++ rest) = cs := by
  obtain ⟨c, cs, rfl, hfirst, hdigits⟩ := h
  rw [List.cons_append, numberChars.eq_def]
  split
  · rename_i heq
    obtain ⟨rfl, rfl⟩ := List.cons.inj heq
    exact congrArg ('-' :: ·) (takeWhile_append_of_stop hdigits hrest).1
  · rename_i hminus
    have hdigit : c.isDigit = true := hfirst.resolve_right fun h => hminus _ (by rw [h])
    have hall : ∀ d ∈ c :: cs, Decimal.isPositionalChar d = true := by
      rintro d (_ | ⟨_, hd⟩)
      · rw [Decimal.isPositionalChar, hdigit, Bool.true_or]
      · exact hdigits d hd
    exact (takeWhile_append_of_stop hall hrest).1

/-- What begins like a numeral is read as a number, as far as its digits and points go. -/
theorem operand_numeral {cs : List Char} (h : Decimal.Begins Decimal.isPositionalChar cs)
    (hblanks : Blanks blanks) (hrest : ∀ c ∈ rest.head?, Decimal.isPositionalChar c = false) :
    operand (blanks ++ (cs ++ rest)) =
      match Number.ofChars? cs with
      | some n => .ok (.literal (.number n), rest)
      | none => .error ⟨.invalidNumber, cs ++ rest⟩ := by
  have htoken := numberChars_append h hrest
  obtain ⟨c, cs, rfl, hfirst, hdigits⟩ := h
  have hnotBlank : isBlank c = false := by
    rcases hfirst with hdigit | rfl
    · exact isBlank_of_isDigit hdigit
    · decide
  have htrim : trimStart (blanks ++ (c :: cs ++ rest)) = c :: (cs ++ rest) := by
    rw [trimStart_append_of_blank hblanks]
    exact trimStart_of_not_blank hnotBlank _
  simp only [operand, htrim]
  rw [if_neg (not_quote_of_isDigit hfirst), if_pos hfirst, ← List.cons_append]
  simp only [htoken]
  cases Number.ofChars? (c :: cs) with
  | none => rfl
  | some n => simp only [List.drop_left]

/-- A number is read in front of what ends it. -/
theorem operand_number {n : Number} (hn : n.IsReadable)
    (hbegins : Decimal.Begins Decimal.isPositionalChar n.chars) (hblanks : Blanks blanks)
    (hrest : Delimited rest) :
    operand (blanks ++ (n.chars ++ rest)) = .ok (.literal (.number n), rest) := by
  have hstop : ∀ d ∈ rest.head?, Decimal.isPositionalChar d = false := by
    intro d hd
    rcases hrest d hd with hblank | rfl
    · have hpoint : decide (d = '.') = false := decide_eq_false (ne_of_isBlank hblank (by decide))
      rw [Decimal.isPositionalChar, hpoint, Bool.or_false]
      cases hdigit : d.isDigit with
      | false => rfl
      | true => rw [isBlank_of_isDigit hdigit] at hblank; cases hblank
    · decide
  rw [operand_numeral hbegins hblanks hstop, Number.ofChars?_chars hn]

/-- A key path on the right side is read as a word, if it does not begin with a digit. -/
theorem operand_word {key : String} (hkey : IsKeyPath key)
    (hfirst : ∀ c ∈ key.toList.head?, c.isDigit = false) (hblanks : Blanks blanks)
    (hrest : Delimited rest) :
    operand (blanks ++ (key.toList ++ rest)) = .ok (wordOperand key, rest) := by
  have hread : keyPath ([] ++ (key.toList ++ rest)) = .ok (key, rest) :=
    keyPath_append hkey .nil hrest
  rw [List.nil_append] at hread
  cases hlist : key.toList with
  | nil => exact absurd hlist hkey.nonempty
  | cons c cs =>
    have hc : isKeyChar c = true := hkey.chars c (by simp [hlist])
    have hdigit : c.isDigit = false := hfirst c (by rw [hlist]; rfl)
    have hsign : ∀ d : Char, isKeyChar d = false → c ≠ d := by
      rintro d hd rfl
      rw [hc] at hd
      cases hd
    have hquote : ¬(c = '"' ∨ c = '\'') := by
      rintro (h | h)
      · exact hsign '"' (by decide +kernel) h
      · exact hsign '\'' (by decide +kernel) h
    have hnumber : ¬(c.isDigit = true ∨ c = '-') := by
      rintro (h | h)
      · rw [hdigit] at h
        cases h
      · exact hsign '-' (by decide +kernel) h
    have htrim : trimStart (blanks ++ (c :: cs ++ rest)) = c :: (cs ++ rest) := by
      rw [trimStart_append_of_blank hblanks]
      exact trimStart_of_not_blank (isBlank_of_isKeyChar hc) _
    rw [hlist] at hread
    simp only [operand, htrim]
    rw [if_neg hquote, if_neg hnumber, ← List.cons_append, hread]
    rfl

theorem wordOperand_of_isRightKey {key : String} (h : IsRightKey key) :
    wordOperand key = .path key := by
  have hnone := h.noConstant
  simp only [List.mem_cons, List.not_mem_nil, or_false, not_or] at hnone
  obtain ⟨h1, h2, h3, h4, h5, h6⟩ := hnone
  rw [wordOperand.eq_def]
  split <;> first | contradiction | rfl

end RankedRules.Qualifier
