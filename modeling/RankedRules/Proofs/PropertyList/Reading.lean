/-
Every text of a value is read as that value.

A reader passes over the gap in front of its token and takes the token, and what follows is left. A
word ends where a character follows that no word has, so this is asked of what follows a value.

* `PropertyList.Written.isRead` — a text is read with the rest behind it;
* `PropertyList.parse_written` — a whole text is read, with gaps around it;
* `PropertyList.parse_text` — the text of a value is read as the value;
* `PropertyList.printable_of_parse` — the values that are read have texts.
-/
import RankedRules.Proofs.PropertyList.Written
import RankedRules.Proofs.Success

namespace RankedRules.PropertyList

/-! ## Tokens -/

theorem skip_token {c : Char} (hblank : Text.isBlank c = false) (hslash : c ≠ '/')
    (rest : List Char) : skip (c :: rest) = c :: rest := by
  rw [skip.eq_def]
  split
  · rename_i heq
    exact absurd (List.cons.inj heq).1 hslash
  · rename_i heq
    exact absurd (List.cons.inj heq).1 hslash
  · rename_i heq
    obtain ⟨rfl, rfl⟩ := List.cons.inj heq
    rw [hblank]
    rfl
  · rename_i heq
    cases heq

/-- A quoted text is read up to its closing quote, whatever follows. -/
theorem quotedChars_append (cs rest : List Char) :
    quotedChars '"' (cs.flatMap quoteChar ++ '"' :: rest) = .ok (cs, rest) := by
  induction cs with
  | nil => rfl
  | cons c cs ih =>
    -- The signs that are escaped come back from their escapes, all others stand for themselves.
    rw [List.flatMap_cons, quoteChar]
    split
    · rename_i hc
      subst hc
      simp [quotedChars, unescape, ih, bind, Except.bind]
    · rename_i hquote
      split
      · rename_i hc
        subst hc
        simp [quotedChars, unescape, ih, bind, Except.bind]
      · rename_i hslash
        split
        · rename_i hc
          subst hc
          simp [quotedChars, unescape, ih, bind, Except.bind]
        · split
          · rename_i hc
            subst hc
            simp [quotedChars, unescape, ih, bind, Except.bind]
          · simp [quotedChars, hslash, hquote, ih, bind, Except.bind]

theorem quote_toList (s : String) :
    (quote s).toList = '"' :: (s.toList.flatMap quoteChar ++ ['"']) := by
  simp [quote]

theorem quoted_append (s : String) (rest : List Char) :
    quoted '"' (s.toList.flatMap quoteChar ++ '"' :: rest) = .ok (s, rest) := by
  simp [quoted, quotedChars_append, bind, Except.bind]

/-- A digit is none of the signs. -/
theorem isWordChar_of_isDigit {c : Char} (h : c.isDigit = true) : isWordChar c = true := by
  have hsigns : ['\x7b', '\x7d', '(', ')', '=', ';', ',', '"', '\''].contains c = false := by
    rw [List.contains_eq_mem, decide_eq_false_iff_not]
    intro hmem
    have hnone : ∀ d ∈ ['\x7b', '\x7d', '(', ')', '=', ';', ',', '"', '\''],
        d.isDigit = false := by decide
    rw [hnone c hmem] at h
    cases h
  rw [isWordChar, Text.isBlank_of_isDigit h, hsigns]
  rfl

theorem isWordChar_of_isScientificChar {c : Char} (h : Decimal.isScientificChar c = true) :
    isWordChar c = true := by
  simp only [Decimal.isScientificChar, Bool.or_eq_true, List.contains_eq_mem, List.mem_cons,
    List.not_mem_nil, or_false, decide_eq_true_eq] at h
  rcases h with hdigit | rfl | rfl | rfl | rfl
  · exact isWordChar_of_isDigit hdigit
  · decide
  · decide
  · decide
  · decide

/-- A number is read as a word up to where the word ends. -/
theorem word_number (n : Number) {rest : List Char}
    (hrest : ∀ c ∈ rest.head?, isWordChar c = false) :
    word (n.chars ++ rest) = .ok (n.chars, rest) := by
  obtain ⟨c, cs, hchars, hfirst, hall⟩ := n.chars_begins
  have hword : ∀ d ∈ c :: cs, isWordChar d = true := by
    intro d hd
    rcases List.mem_cons.1 hd with rfl | hd
    · rcases hfirst with hdigit | rfl
      · exact isWordChar_of_isDigit hdigit
      · decide
    · exact isWordChar_of_isScientificChar (hall d hd)
  obtain ⟨htake, hdrop⟩ := Text.takeWhile_append_of_stop hword hrest
  simp only [word, hchars, htake, hdrop]

/-! ## What is read -/

/-- A text is read as a phrase in front of what ends it, and nothing more is read. -/
def Phrase.IsRead (cs : List Char) : Phrase → Prop
  | .value v => ∀ ⦃fuel : Nat⦄ ⦃gap rest : List Char⦄, cs.length ≤ fuel →
      (∀ rest, skip (gap ++ rest) = skip rest) → (∀ c ∈ rest.head?, isWordChar c = false) →
      PropertyList.value fuel (gap ++ (cs ++ rest)) = .ok (v, rest)
  | .items vs => ∀ ⦃fuel n : Nat⦄ ⦃rest : List Char⦄, cs.length ≤ fuel → cs.length ≤ n →
      PropertyList.items (PropertyList.value fuel) n (cs ++ rest) = .ok (vs, rest)
  | .members pairs => ∀ ⦃fuel n : Nat⦄ ⦃rest : List Char⦄, cs.length ≤ fuel → cs.length ≤ n →
      PropertyList.members (PropertyList.value fuel) n (cs ++ rest) = .ok (pairs, rest)

theorem number_isRead {n : Number} (hn : n.IsReadable) :
    Phrase.IsRead n.chars (.value (.number n)) := by
  intro fuel gap rest hfuel hgap hrest
  obtain ⟨c, cs, hchars, hfirst, _⟩ := n.chars_begins
  have hword := word_number n hrest
  have hvalue : wordValue n.chars = .number n := by
    rw [wordValue, Number.ofChars?_chars hn]
  rw [hchars] at hfuel hword hvalue ⊢
  obtain ⟨fuel, rfl⟩ : ∃ k, fuel = k + 1 := ⟨fuel - 1, by simp at hfuel; omega⟩
  have hsign : ∀ d : Char, d.isDigit = false → d ≠ '-' → c ≠ d := by
    rintro d hd hminus rfl
    rcases hfirst with hdigit | hminus'
    · rw [hd] at hdigit
      cases hdigit
    · exact hminus hminus'
  have hskip : skip (gap ++ (c :: cs ++ rest)) = c :: (cs ++ rest) := by
    rw [hgap]
    refine skip_token ?_ (hsign '/' rfl (by decide)) _
    rcases hfirst with hdigit | rfl
    · exact Text.isBlank_of_isDigit hdigit
    · decide
  -- No value of another kind begins like a number.
  simp only [value, hskip, hsign '\x7b' rfl (by decide), hsign '(' rfl (by decide),
    hsign '"' rfl (by decide), hsign '\'' rfl (by decide), if_false, false_or]
  rw [← List.cons_append, hword]
  simp [bind, Except.bind, hvalue]

theorem string_isRead (s : String) : Phrase.IsRead (quote s).toList (.value (.string s)) := by
  intro fuel gap rest hfuel hgap _
  rw [quote_toList] at hfuel ⊢
  obtain ⟨fuel, rfl⟩ : ∃ k, fuel = k + 1 := ⟨fuel - 1, by simp at hfuel; omega⟩
  have hskip : skip (gap ++ ('"' :: (s.toList.flatMap quoteChar ++ ['"']) ++ rest)) =
      '"' :: (s.toList.flatMap quoteChar ++ '"' :: rest) := by
    rw [hgap]
    simpa using skip_token (c := '"') (by decide) (by decide)
      (s.toList.flatMap quoteChar ++ '"' :: rest)
  simp only [value, hskip, quoted_append]
  simp [bind, Except.bind]

theorem array_isRead {vs : List Value} {cs : List Char} (h : Phrase.IsRead cs (.items vs)) :
    Phrase.IsRead ('(' :: cs) (.value (.array vs)) := by
  intro fuel gap rest hfuel hgap _
  simp only [List.length_cons] at hfuel
  obtain ⟨fuel, rfl⟩ : ∃ k, fuel = k + 1 := ⟨fuel - 1, by omega⟩
  have hskip : skip (gap ++ ('(' :: cs ++ rest)) = '(' :: (cs ++ rest) := by
    rw [hgap]
    exact skip_token (by decide) (by decide) _
  have hread : items (value fuel) ((cs ++ rest).length + 1) (cs ++ rest) = .ok (vs, rest) :=
    h (by omega) (by simp only [List.length_append]; omega)
  simp only [value, hskip]
  rw [if_neg (by decide), if_pos trivial, hread]
  rfl

theorem object_isRead {pairs : List (String × Value)} {cs : List Char}
    (h : Phrase.IsRead cs (.members pairs)) :
    Phrase.IsRead ('\x7b' :: cs) (.value (.object (Entries.ofList pairs))) := by
  intro fuel gap rest hfuel hgap _
  simp only [List.length_cons] at hfuel
  obtain ⟨fuel, rfl⟩ : ∃ k, fuel = k + 1 := ⟨fuel - 1, by omega⟩
  have hskip : skip (gap ++ ('\x7b' :: cs ++ rest)) = '\x7b' :: (cs ++ rest) := by
    rw [hgap]
    exact skip_token (by decide) (by decide) _
  have hread : members (value fuel) ((cs ++ rest).length + 1) (cs ++ rest) = .ok (pairs, rest) :=
    h (by omega) (by simp only [List.length_append]; omega)
  simp only [value, hskip]
  rw [if_pos trivial, hread]
  rfl

/-- What follows a gap and begins with a sign ends a word. -/
theorem Gap.noWord_append {gap : List Char} (h : Gap gap) {c : Char} (hc : isWordChar c = false)
    (rest : List Char) : ∀ d ∈ (gap ++ c :: rest).head?, isWordChar d = false := by
  cases gap with
  | nil =>
    rintro d ⟨⟩
    exact hc
  | cons b gap =>
    rintro d ⟨⟩
    exact h.noWord _ rfl

/-- A sign is found behind a gap. -/
theorem Gap.skip_append {gap : List Char} (h : Gap gap) {c : Char}
    (hblank : Text.isBlank c = false) (hslash : c ≠ '/') (rest : List Char) :
    skip (gap ++ c :: rest) = c :: rest := by
  rw [h.skipped, skip_token hblank hslash]

theorem noItem_isRead {gap : List Char} (hgap : Gap gap) :
    Phrase.IsRead (gap ++ [')']) (.items []) := by
  intro fuel n rest _ hn
  simp only [List.length_append, List.length_singleton] at hn
  obtain ⟨n, rfl⟩ : ∃ k, n = k + 1 := ⟨n - 1, by omega⟩
  rw [List.append_assoc, List.singleton_append, items,
    hgap.skip_append (by decide) (by decide)]
  rfl

/-- A value begins with none of the signs that stand behind values, and with nothing that is
skipped. -/
theorem Written.exists_first {v : Value} {cs : List Char} (h : Written (.value v) cs) :
    ∃ c rest, cs = c :: rest ∧ Text.isBlank c = false ∧ c ≠ '/' ∧ c ≠ ')' := by
  cases h with
  | @number n hn =>
    obtain ⟨c, rest, hchars, hfirst, _⟩ := n.chars_begins
    refine ⟨c, rest, hchars, ?_⟩
    rcases hfirst with hdigit | rfl
    · refine ⟨Text.isBlank_of_isDigit hdigit, ?_, ?_⟩
      · rintro rfl
        cases hdigit
      · rintro rfl
        cases hdigit
    · decide
  | string s => exact ⟨'"', _, quote_toList s, by decide⟩
  | array _ => exact ⟨'(', _, rfl, by decide⟩
  | object _ => exact ⟨'\x7b', _, rfl, by decide⟩

/-- Behind a gap there is an item, and then what ends the list or stands in front of the next. -/
theorem items_of_value {fuel n : Nat} {v : Value} {gap cs gap' rest : List Char} {c : Char}
    (hfuel : cs.length ≤ fuel) (hgap : Gap gap) (hwritten : Written (.value v) cs)
    (hread : Phrase.IsRead cs (.value v)) (hgap' : Gap gap') (hc : isWordChar c = false)
    (hblank : Text.isBlank c = false) (hslash : c ≠ '/') :
    items (value fuel) (n + 1) (gap ++ (cs ++ (gap' ++ c :: rest))) =
      match c :: rest with
      | ',' :: rest => do
        let (values, rest) ← items (value fuel) n rest
        .ok (v :: values, rest)
      | ')' :: rest => .ok ([v], rest)
      | rest => .error ⟨.arraySeparator, rest⟩ := by
  obtain ⟨first, others, rfl, hfirst, hcomment, hclosing⟩ := hwritten.exists_first
  have hskip : skip (gap ++ (first :: others ++ (gap' ++ c :: rest))) =
      first :: (others ++ (gap' ++ c :: rest)) := hgap.skip_append hfirst hcomment _
  have hvalue : value fuel (first :: (others ++ (gap' ++ c :: rest))) =
      .ok (v, gap' ++ c :: rest) :=
    @hread fuel [] _ hfuel (fun _ => rfl) (hgap'.noWord_append hc rest)
  rw [items, hskip]
  split
  · -- The item is there, so the list does not end here.
    rename_i heq
    exact absurd (List.cons.inj heq).1 hclosing
  · -- The sides differ only in that one of them has still to skip the gap behind the item.
    have hbehind : skip (gap' ++ c :: rest) = c :: rest := hgap'.skip_append hblank hslash rest
    simp only [hvalue, bind, Except.bind]
    generalize skip (gap' ++ c :: rest) = behind at hbehind ⊢
    subst hbehind
    rfl

theorem lastItem_isRead {v : Value} {gap cs gap' : List Char} (hgap : Gap gap)
    (hwritten : Written (.value v) cs) (hgap' : Gap gap') (h : Phrase.IsRead cs (.value v)) :
    Phrase.IsRead (gap ++ (cs ++ (gap' ++ [')']))) (.items [v]) := by
  intro fuel n rest hfuel hn
  simp only [List.length_append, List.length_singleton] at hfuel hn
  obtain ⟨n, rfl⟩ : ∃ k, n = k + 1 := ⟨n - 1, by omega⟩
  simp only [List.append_assoc, List.singleton_append]
  exact items_of_value (by omega) hgap hwritten h hgap' (by decide) (by decide) (by decide)

theorem nextItem_isRead {v : Value} {others : List Value} {gap cs gap' cs' : List Char}
    (hgap : Gap gap) (hwritten : Written (.value v) cs) (hgap' : Gap gap')
    (h : Phrase.IsRead cs (.value v)) (hothers : Phrase.IsRead cs' (.items others)) :
    Phrase.IsRead (gap ++ (cs ++ (gap' ++ ',' :: cs'))) (.items (v :: others)) := by
  intro fuel n rest hfuel hn
  simp only [List.length_append, List.length_cons] at hfuel hn
  obtain ⟨n, rfl⟩ : ∃ k, n = k + 1 := ⟨n - 1, by omega⟩
  simp only [List.append_assoc, List.cons_append]
  have hread : items (value fuel) n (cs' ++ rest) = .ok (others, rest) :=
    hothers (by omega) (by omega)
  rw [items_of_value (by omega) hgap hwritten h hgap' (by decide) (by decide) (by decide)]
  simp only [hread, bind, Except.bind]

theorem noMember_isRead {gap : List Char} (hgap : Gap gap) :
    Phrase.IsRead (gap ++ ['\x7d']) (.members []) := by
  intro fuel n rest _ hn
  simp only [List.length_append, List.length_singleton] at hn
  obtain ⟨n, rfl⟩ : ∃ k, n = k + 1 := ⟨n - 1, by omega⟩
  rw [List.append_assoc, List.singleton_append, members,
    hgap.skip_append (by decide) (by decide)]
  rfl

/-- Behind a gap there is a member, and then what ends the object or stands in front of the next. -/
theorem members_of_value {fuel n : Nat} {name : String} {v : Value}
    {gap gap₁ gap₂ cs gap₃ rest : List Char} {c : Char} (hfuel : cs.length ≤ fuel) (hgap : Gap gap)
    (hgap₁ : Gap gap₁) (hgap₂ : Gap gap₂) (hread : Phrase.IsRead cs (.value v)) (hgap₃ : Gap gap₃)
    (hc : isWordChar c = false) (hblank : Text.isBlank c = false) (hslash : c ≠ '/') :
    members (value fuel) (n + 1) (gap ++ ((quote name).toList ++
        (gap₁ ++ '=' :: (gap₂ ++ (cs ++ (gap₃ ++ c :: rest)))))) =
      match c :: rest with
      | ';' :: rest => do
        let (pairs, rest) ← members (value fuel) n rest
        .ok ((name, v) :: pairs, rest)
      | '\x7d' :: rest => .ok ([(name, v)], rest)
      | rest => .error ⟨.dictionarySeparator, rest⟩ := by
  have hskip : skip (gap ++ ((quote name).toList ++
      (gap₁ ++ '=' :: (gap₂ ++ (cs ++ (gap₃ ++ c :: rest)))))) =
      '"' :: (name.toList.flatMap quoteChar ++
        '"' :: (gap₁ ++ '=' :: (gap₂ ++ (cs ++ (gap₃ ++ c :: rest))))) := by
    rw [quote_toList]
    simpa using hgap.skip_append (c := '"') (by decide) (by decide)
      (name.toList.flatMap quoteChar ++
        '"' :: (gap₁ ++ '=' :: (gap₂ ++ (cs ++ (gap₃ ++ c :: rest)))))
  have hname : PropertyList.name ('"' :: (name.toList.flatMap quoteChar ++
      '"' :: (gap₁ ++ '=' :: (gap₂ ++ (cs ++ (gap₃ ++ c :: rest)))))) =
      .ok (name, gap₁ ++ '=' :: (gap₂ ++ (cs ++ (gap₃ ++ c :: rest)))) := by
    rw [PropertyList.name, if_pos (.inl rfl), quoted_append]
  have hexpect : expect '=' (gap₁ ++ '=' :: (gap₂ ++ (cs ++ (gap₃ ++ c :: rest)))) =
      .ok (gap₂ ++ (cs ++ (gap₃ ++ c :: rest))) := by
    rw [expect, hgap₁.skip_append (by decide) (by decide)]
    rfl
  have hvalue : value fuel (gap₂ ++ (cs ++ (gap₃ ++ c :: rest))) = .ok (v, gap₃ ++ c :: rest) :=
    hread hfuel hgap₂.skipped (hgap₃.noWord_append hc rest)
  rw [members, hskip]
  split
  · -- Nor does the object, where a name begins.
    rename_i heq
    exact absurd (List.cons.inj heq).1 (by decide)
  · have hbehind : skip (gap₃ ++ c :: rest) = c :: rest := hgap₃.skip_append hblank hslash rest
    simp only [hname, hexpect, hvalue, bind, Except.bind]
    generalize skip (gap₃ ++ c :: rest) = behind at hbehind ⊢
    subst hbehind
    rfl

theorem lastMember_isRead {name : String} {v : Value} {gap gap₁ gap₂ cs gap₃ : List Char}
    (hgap : Gap gap) (hgap₁ : Gap gap₁) (hgap₂ : Gap gap₂) (h : Phrase.IsRead cs (.value v))
    (hgap₃ : Gap gap₃) :
    Phrase.IsRead
      (gap ++ ((quote name).toList ++ (gap₁ ++ '=' :: (gap₂ ++ (cs ++ (gap₃ ++ ['\x7d']))))))
      (.members [(name, v)]) := by
  intro fuel n rest hfuel hn
  simp only [List.length_append, List.length_cons, List.length_nil] at hfuel hn
  obtain ⟨n, rfl⟩ : ∃ k, n = k + 1 := ⟨n - 1, by omega⟩
  simp only [List.append_assoc, List.cons_append, List.nil_append]
  exact members_of_value (by omega) hgap hgap₁ hgap₂ h hgap₃ (by decide) (by decide) (by decide)

theorem nextMember_isRead {name : String} {v : Value} {others : List (String × Value)}
    {gap gap₁ gap₂ cs gap₃ cs' : List Char} (hgap : Gap gap) (hgap₁ : Gap gap₁)
    (hgap₂ : Gap gap₂) (h : Phrase.IsRead cs (.value v)) (hgap₃ : Gap gap₃)
    (hothers : Phrase.IsRead cs' (.members others)) :
    Phrase.IsRead
      (gap ++ ((quote name).toList ++ (gap₁ ++ '=' :: (gap₂ ++ (cs ++ (gap₃ ++ ';' :: cs'))))))
      (.members ((name, v) :: others)) := by
  intro fuel n rest hfuel hn
  simp only [List.length_append, List.length_cons] at hfuel hn
  obtain ⟨n, rfl⟩ : ∃ k, n = k + 1 := ⟨n - 1, by omega⟩
  simp only [List.append_assoc, List.cons_append]
  have hread : members (value fuel) n (cs' ++ rest) = .ok (others, rest) :=
    hothers (by omega) (by omega)
  rw [members_of_value (by omega) hgap hgap₁ hgap₂ h hgap₃ (by decide) (by decide) (by decide)]
  simp only [hread, bind, Except.bind]

/-- Every text of a phrase is read as the phrase. -/
theorem Written.isRead {phrase : Phrase} {cs : List Char} (h : Written phrase cs) :
    phrase.IsRead cs := by
  induction h with
  | number hn => exact number_isRead hn
  | string s => exact string_isRead s
  | array _ ih => exact array_isRead ih
  | object _ ih => exact object_isRead ih
  | noItem hgap => exact noItem_isRead hgap
  | lastItem hgap hv hgap' ih => exact lastItem_isRead hgap hv hgap' ih
  | nextItem hgap hv hgap' _ ih ihothers => exact nextItem_isRead hgap hv hgap' ih ihothers
  | noMember hgap => exact noMember_isRead hgap
  | lastMember name hgap hgap₁ hgap₂ _ hgap₃ ih =>
    exact lastMember_isRead hgap hgap₁ hgap₂ ih hgap₃
  | nextMember name hgap hgap₁ hgap₂ _ hgap₃ _ ih ihothers =>
    exact nextMember_isRead hgap hgap₁ hgap₂ ih hgap₃ ihothers

/-- A whole text of a value is that value, with gaps around it or without. -/
theorem parse_written {v : Value} {cs front behind : List Char} (h : Written (.value v) cs)
    (hfront : ∀ rest, skip (front ++ rest) = skip rest) (hbehind : Gap behind) :
    parse (front ++ (cs ++ behind)) = .ok v := by
  have hread : value ((front ++ (cs ++ behind)).length + 1) (front ++ (cs ++ behind)) =
      .ok (v, behind) := by
    refine h.isRead ?_ hfront hbehind.noWord
    simp only [List.length_append]
    omega
  have hnil : skip behind = [] := by
    have happend := hbehind.skipped []
    rwa [List.append_nil] at happend
  exact Reader.whole_eq_ok_iff.2 ⟨behind, hread, hnil⟩

/-- The text of a value is read as the value. -/
theorem parse_text {v : Value} (h : Printable v) : parse (text v).toList = .ok v := by
  have hread : parse ([] ++ ((text v).toList ++ [])) = .ok v :=
    parse_written h.text_written (fun _ => rfl) .nil
  simpa using hread

/-- With something behind it that is not skipped, the text of a value is no text of any value. -/
theorem parse_text_append {v w : Value} (h : Printable v) {behind : List Char}
    (hword : ∀ c ∈ behind.head?, isWordChar c = false) (hskip : skip behind ≠ []) :
    parse ((text v).toList ++ behind) ≠ .ok w := by
  have hread : value (((text v).toList ++ behind).length + 1) ((text v).toList ++ behind) =
      .ok (v, behind) := by
    refine @Written.isRead _ _ h.text_written _ [] _ ?_ (fun _ => rfl) hword
    simp only [List.length_append]
    omega
  intro hparse
  obtain ⟨rest, hread', hrest⟩ := Reader.whole_eq_ok_iff.1 hparse
  rw [hread] at hread'
  cases hread'
  exact hskip hrest

/-! ## The values that are read -/

theorem printable_wordValue (chars : List Char) : Printable (wordValue chars) := by
  rw [wordValue]
  split
  · rename_i n hn
    exact .number (Number.isReadable_of_ofChars? hn)
  · exact .string _

/-- The items of a list are what the reader of items reads. -/
theorem printable_items {item : Reader Cause Value} {n : Nat} {cs rest : List Char}
    {vs : List Value} (hitem : ∀ cs v rest, item cs = .ok (v, rest) → Printable v)
    (h : items item n cs = .ok (vs, rest)) : ∀ v ∈ vs, Printable v := by
  induction n generalizing cs vs with
  | zero => cases h
  | succ n ih =>
    rw [items] at h
    split at h
    · cases h
      simp
    · obtain ⟨⟨v, behind⟩, hread, h⟩ := bind_eq_ok_iff.1 h
      have hv := hitem _ _ _ hread
      dsimp only at h
      split at h
      · obtain ⟨⟨others, left⟩, hothers, h⟩ := bind_eq_ok_iff.1 h
        cases h
        exact List.forall_mem_cons.2 ⟨hv, ih hothers⟩
      · cases h
        exact List.forall_mem_singleton.2 hv
      · cases h

theorem printable_members {item : Reader Cause Value} {n : Nat} {cs rest : List Char}
    {pairs : List (String × Value)} (hitem : ∀ cs v rest, item cs = .ok (v, rest) → Printable v)
    (h : members item n cs = .ok (pairs, rest)) : ∀ pair ∈ pairs, Printable pair.2 := by
  induction n generalizing cs pairs with
  | zero => cases h
  | succ n ih =>
    rw [members] at h
    split at h
    · cases h
      simp
    · obtain ⟨⟨name, behindName⟩, _, h⟩ := bind_eq_ok_iff.1 h
      obtain ⟨behindSign, _, h⟩ := bind_eq_ok_iff.1 h
      obtain ⟨⟨v, behind⟩, hread, h⟩ := bind_eq_ok_iff.1 h
      have hv := hitem _ _ _ hread
      dsimp only at h
      split at h
      · obtain ⟨⟨others, left⟩, hothers, h⟩ := bind_eq_ok_iff.1 h
        cases h
        exact List.forall_mem_cons.2 ⟨hv, ih hothers⟩
      · cases h
        exact List.forall_mem_singleton.2 hv
      · cases h

theorem printable_value {fuel : Nat} {cs rest : List Char} {v : Value}
    (h : value fuel cs = .ok (v, rest)) : Printable v := by
  induction fuel generalizing cs v rest with
  | zero => cases h
  | succ fuel ih =>
    have hitem : ∀ cs v rest, value fuel cs = .ok (v, rest) → Printable v := fun _ _ _ hread =>
      ih hread
    rw [value] at h
    split at h
    · cases h
    · split at h
      · -- An object is put in order, and each of its members has been read.
        obtain ⟨⟨pairs, behind⟩, hread, h⟩ := bind_eq_ok_iff.1 h
        cases h
        exact .object (Entries.sorted_ofList _) fun member hmember =>
          printable_members hitem hread member (Entries.mem_ofList hmember)
      · split at h
        · obtain ⟨⟨vs, behind⟩, hread, h⟩ := bind_eq_ok_iff.1 h
          cases h
          exact .array (printable_items hitem hread)
        · split at h
          · obtain ⟨⟨s, behind⟩, _, h⟩ := bind_eq_ok_iff.1 h
            cases h
            exact .string _
          · obtain ⟨⟨chars, behind⟩, _, h⟩ := bind_eq_ok_iff.1 h
            cases h
            exact printable_wordValue _

/-- Every value that is read has a text. -/
theorem printable_of_parse {cs : List Char} {v : Value} (h : parse cs = .ok v) : Printable v := by
  obtain ⟨rest, hread, _⟩ := Reader.whole_eq_ok_iff.1 h
  exact printable_value hread

end RankedRules.PropertyList
