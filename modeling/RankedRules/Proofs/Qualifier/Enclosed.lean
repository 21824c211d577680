/-
Conditions in parentheses.

What a reader takes from a text does not depend on what stands behind a closing parenthesis. No
token goes on across it, and no chain and no word does, so what a reader takes to the end of a text
it takes as well in front of the parenthesis, and leaves the same rest. This is carried from the
tokens through the whole grammar. So a text that is a condition is one between parentheses, too, and
several such texts can be put together to one.

* `Qualifier.Closes`, `Qualifier.ReadsEnclosed` — what is appended, and the readers that take the
  same in front of it;
* `Qualifier.operand_enclosed`, `Qualifier.comparison_enclosed`, `Qualifier.expression_enclosed` —
  tokens, conditions and combinations;
* `Qualifier.enclosed_text_isRead` — a text in parentheses is read as its condition;
* `Qualifier.parse_enclosedTexts` — several texts in parentheses with a word between them.
-/
import RankedRules.Proofs.Qualifier.Settled

namespace RankedRules.Qualifier

open Text

variable {cs rest front s : List Char}

/-! ## What is appended -/

/-- The next character, behind blanks, is a closing parenthesis. -/
def Closes (s : List Char) : Prop := ∃ blanks tail, Blanks blanks ∧ s = blanks ++ ')' :: tail

theorem Closes.delimited (h : Closes s) : Delimited s := by
  obtain ⟨blanks, tail, hblanks, rfl⟩ := h
  exact (delimited_closing tail).blanks_append hblanks

theorem Closes.trimStart_eq (h : Closes s) : ∃ tail, trimStart s = ')' :: tail := by
  obtain ⟨blanks, tail, hblanks, rfl⟩ := h
  exact ⟨tail, by rw [trimStart_append_of_blank hblanks, trimStart_of_not_blank (by decide)]⟩

/-- A run of a class without blanks and without the parenthesis ends here. -/
theorem Closes.not_class (h : Closes s) {p : Char → Bool} (hclosing : p ')' = false)
    (hp : ∀ c, p c = true → isBlank c = false) : ∀ c ∈ s.head?, p c = false := by
  intro c hc
  rcases h.delimited c hc with hblank | rfl
  · refine Bool.eq_false_iff.2 fun hclass => ?_
    rw [hp c hclass] at hblank
    cases hblank
  · exact hclosing

/-- What `read` takes from a text, `read'` takes if blanks are in front and a closing parenthesis is
behind. -/
def ReadsEnclosed {α : Type} (read read' : Reader Cause α) : Prop :=
  ∀ ⦃cs rest : List Char⦄ ⦃a : α⦄, read cs = .ok (a, rest) →
    ∀ ⦃front s : List Char⦄, Blanks front → Closes s →
      read' (front ++ (cs ++ s)) = .ok (a, rest ++ s)

/-- What is not blank stays at its place. -/
theorem trimStart_append_of_ne_nil (hfront : Blanks front) (h : trimStart cs ≠ [])
    (s : List Char) : trimStart (front ++ (cs ++ s)) = trimStart cs ++ s := by
  obtain ⟨blanks, hblanks, hcs⟩ := exists_trimStart cs
  have hfirst := first_trimStart cs
  generalize trimStart cs = token at h hcs hfirst ⊢
  subst hcs
  obtain ⟨c, token, rfl⟩ := List.exists_cons_of_ne_nil h
  rw [trimStart_append_of_blank hfront, List.append_assoc, trimStart_append_of_blank hblanks]
  exact trimStart_of_not_blank (hfirst c rfl) _

/-! ## Tokens -/

theorem afterWord?_enclosed {word : List Char} (hs : Closes s)
    (hword : ∀ w ∈ word, w ≠ ')' ∧ isBlank w = false) (cs : List Char) :
    afterWord? word (cs ++ s) = (afterWord? word cs).map (· ++ s) := by
  induction word generalizing cs with
  | nil =>
    have hkey : ∀ c ∈ s.head?, isKeyChar c = false := isKeyChar_of_delimited hs.delimited
    cases cs with
    | nil =>
      cases s with
      | nil => rfl
      | cons c s =>
        have hc : isKeyChar c = false := hkey c rfl
        simp [afterWord?, hc]
    | cons c cs =>
      cases hc : isKeyChar c <;> simp [afterWord?, hc]
  | cons w word ih =>
    obtain ⟨hw, hrest⟩ := List.forall_mem_cons.1 hword
    cases cs with
    | nil =>
      -- The word is not there, and does not begin with a blank or the parenthesis.
      cases s with
      | nil => rfl
      | cons c s =>
        have hne : c.toUpper ≠ w := by
          rintro rfl
          rcases hs.delimited c rfl with hblank | rfl
          · rw [toUpper_of_isBlank hblank, hblank] at hw
            exact absurd hw.2 (by decide)
          · exact hw.1 (by decide)
        rw [List.nil_append, afterWord?, if_neg hne]
        rfl
    | cons c cs =>
      rw [List.cons_append, afterWord?, afterWord?]
      split
      · exact ih hrest cs
      · rfl

/-- A word stands in a text if it stands there in front of a closing parenthesis. -/
theorem keyword?_enclosed {word : String} (hfront : Blanks front) (hs : Closes s)
    (hne : word.toList ≠ []) (hword : ∀ w ∈ word.toList, w ≠ ')' ∧ isBlank w = false)
    (cs : List Char) : keyword? word (front ++ (cs ++ s)) = (keyword? word cs).map (· ++ s) := by
  rw [keyword?, keyword?]
  by_cases hcs : trimStart cs = []
  · -- There was nothing to read, and now the parenthesis is there, which begins no word.
    have hblanks : Blanks cs := trimStart_eq_nil_iff.1 hcs
    have htrim : trimStart (front ++ (cs ++ s)) = [] ++ trimStart s := by
      rw [trimStart_append_of_blank hfront, trimStart_append_of_blank hblanks, List.nil_append]
    obtain ⟨tail, htail⟩ := hs.trimStart_eq
    have hclosing : Closes (trimStart s) := ⟨[], tail, .nil, htail⟩
    rw [htrim, hcs, afterWord?_enclosed hclosing hword]
    obtain ⟨w, ws, hlist⟩ := List.exists_cons_of_ne_nil hne
    rw [hlist]
    rfl
  · rw [trimStart_append_of_ne_nil hfront hcs, afterWord?_enclosed hs hword]

/-- The words of the grammar are made of letters. -/
theorem connective_enclosed (connective : Connective) (hfront : Blanks front)
    (hs : Closes s) (cs : List Char) :
    keyword? connective.word (front ++ (cs ++ s)) =
      (keyword? connective.word cs).map (· ++ s) := by
  refine keyword?_enclosed hfront hs ?_ ?_ cs
  · cases connective <;> decide
  · cases connective <;> decide

theorem keyPath_enclosed : ReadsEnclosed keyPath keyPath := by
  intro cs rest key h front s hfront hs
  obtain ⟨hkey, htrim, hstop⟩ := keyPath_ok h
  have hrest : ∀ c ∈ (rest ++ s).head?, isKeyChar c = false := by
    cases rest with
    | nil => exact isKeyChar_of_delimited hs.delimited
    | cons d rest => exact hstop
  obtain ⟨blanks, hblanks, hcs⟩ := exists_trimStart cs
  have hread := keyPath_append_of_stop hkey (hfront.append hblanks) hrest
  rw [hcs, htrim]
  simpa using hread

theorem operatorToken_append (hs : Closes s) (cs : List Char) :
    operatorToken (cs ++ s) = operatorToken cs := by
  have hsign := hs.not_class (p := isOperatorSign) (by decide) fun _ => isBlank_of_isOperatorSign
  have hletter := hs.not_class (p := fun c => c.isAlpha || c = ':') (by decide) fun c hc => by
    simp only [Bool.or_eq_true, decide_eq_true_eq] at hc
    rcases hc with halpha | rfl
    · exact isBlank_of_isAlpha halpha
    · decide
  rw [operatorToken, operatorToken, (takeWhile_append_of_head hsign cs).1,
    (takeWhile_append_of_head hletter cs).1]

theorem operator_enclosed : ReadsEnclosed operator operator := by
  intro cs rest op h front s hfront hs
  rw [operator_eq] at h ⊢
  split at h
  · rename_i hop
    cases h
    have hlength := (operatorToken_isPrefix (trimStart cs)).length_le
    have hne : trimStart cs ≠ [] := fun hnil => operatorToken_ne_nil hop (by rw [hnil]; rfl)
    rw [trimStart_append_of_ne_nil hfront hne, operatorToken_append hs, hop,
      List.drop_append_of_le_length hlength]
  · cases h

theorem numberChars_enclosed (hs : Closes s) {c : Char} (hc : c.isDigit = true ∨ c = '-')
    (cs : List Char) : numberChars (c :: cs ++ s) = numberChars (c :: cs) := by
  have hdigit := hs.not_class (p := fun c => c.isDigit || c = '.') (by decide) fun c hc => by
    simp only [Bool.or_eq_true, decide_eq_true_eq] at hc
    rcases hc with hdigit | rfl
    · exact isBlank_of_isDigit hdigit
    · decide
  by_cases hminus : c = '-'
  · subst hminus
    rw [List.cons_append, numberChars, numberChars, (takeWhile_append_of_head hdigit cs).1]
  · rw [numberChars, numberChars, (takeWhile_append_of_head hdigit (c :: cs)).1]
    · rintro _ ⟨⟩
      exact hminus rfl
    · rintro _ ⟨⟩
      exact hminus rfl

theorem operand_enclosed : ReadsEnclosed operand operand := by
  intro cs rest right h front s hfront hs
  have hne : trimStart cs ≠ [] := by
    intro hnil
    rw [operand, hnil] at h
    cases h
  simp only [operand, trimStart_append_of_ne_nil hfront hne] at h ⊢
  generalize htrim : trimStart cs = token at h hne ⊢
  obtain ⟨c, token, rfl⟩ := List.exists_cons_of_ne_nil hne
  simp only [List.cons_append] at h ⊢
  -- A string ends at its own quote, and a number or a word at the first other character, which the
  -- parenthesis is.
  split at h
  · rename_i hquote
    rw [if_pos hquote]
    split at h
    · rename_i hread
      cases h
      obtain ⟨raw, rfl, -, hall⟩ := exists_raw (ne_slash_of_quote hquote) hread
      rw [List.append_assoc, List.cons_append, hall]
    · cases h
  · rename_i hquote
    rw [if_neg hquote]
    split at h
    · rename_i hnumber
      rw [if_pos hnumber, ← List.cons_append, numberChars_enclosed hs hnumber]
      split at h
      · rename_i hn
        cases h
        have hlength := (numberChars_begins (c :: token)).1.length_le
        rw [List.drop_append_of_le_length hlength]
      · cases h
    · rename_i hnumber
      rw [if_neg hnumber]
      obtain ⟨⟨word, behind⟩, hread, h⟩ := bind_eq_ok_iff.1 h
      cases h
      have hword := keyPath_enclosed hread .nil hs
      rw [List.nil_append, List.cons_append] at hword
      rw [hword]
      rfl

/-! ## Conditions and combinations -/

theorem comparison_enclosed : ReadsEnclosed comparison comparison := by
  intro cs rest q h front s hfront hs
  obtain ⟨⟨left, behindLeft⟩, hleft, h⟩ := bind_eq_ok_iff.1 h
  obtain ⟨⟨op, behindOp⟩, hop, h⟩ := bind_eq_ok_iff.1 h
  obtain ⟨⟨right, behindRight⟩, hright, h⟩ := bind_eq_ok_iff.1 h
  have hleft' := keyPath_enclosed hleft hfront hs
  have hop' : operator (behindLeft ++ s) = .ok (op, behindOp ++ s) := operator_enclosed hop .nil hs
  have hright' : operand (behindOp ++ s) = .ok (right, behindRight ++ s) :=
    operand_enclosed hright .nil hs
  simp only [comparison, hleft', hop', hright', bind, Except.bind]
  cases right <;> (cases h; rfl)

/-- A comparison begins with a character of a key. -/
theorem isKeyChar_of_comparison {c : Char} {q : Qualifier} (hc : isBlank c = false)
    (h : comparison (c :: cs) = .ok (q, rest)) : isKeyChar c = true := by
  obtain ⟨⟨left, behind⟩, hleft, -⟩ := bind_eq_ok_iff.1 h
  obtain ⟨hkey, htrim, -⟩ := keyPath_ok hleft
  rw [trimStart_of_not_blank hc] at htrim
  obtain ⟨d, ds, hlist⟩ := List.exists_cons_of_ne_nil hkey.nonempty
  rw [hlist] at htrim
  obtain ⟨rfl, -⟩ := List.cons.inj htrim
  exact hkey.chars c (by rw [hlist]; exact List.mem_cons_self)

theorem primary_enclosed {nested nested' : Reader Cause Qualifier}
    (hnested : ReadsEnclosed nested nested') :
    ReadsEnclosed (primary nested) (primary nested') := by
  intro cs rest q h front s hfront hs
  have hne : trimStart cs ≠ [] := by
    intro hnil
    rw [primary, hnil] at h
    cases h
  have hfirst := first_trimStart cs
  rw [primary] at h ⊢
  rw [trimStart_append_of_ne_nil hfront hne]
  generalize trimStart cs = token at h hne hfirst ⊢
  split at h
  · rename_i inner
    obtain ⟨⟨q', behind⟩, hread, h⟩ := bind_eq_ok_iff.1 h
    dsimp only at h
    split at h
    · rename_i hbehind
      cases h
      have hinner : nested' (inner ++ s) = .ok (q, behind ++ s) := hnested hread .nil hs
      have hne : trimStart behind ≠ [] := by
        rw [hbehind]
        simp
      have hclosing : trimStart (behind ++ s) = trimStart behind ++ s :=
        trimStart_append_of_ne_nil .nil hne s
      rw [hbehind] at hclosing
      simp only [List.cons_append, bind, Except.bind, hinner, hclosing]
    · cases h
  · split at h
    · rename_i hafter
      cases h
      rw [after?_eq_some hafter]
      rfl
    · rename_i hafter
      cases h
      rw [after?_eq_some hafter]
      rfl
    · -- A comparison begins with a key, so what is appended cannot make it one of the constants.
      obtain ⟨c, token, rfl⟩ := List.exists_cons_of_ne_nil hne
      have hblank : isBlank c = false := hfirst c rfl
      have hprimary := primary_of_isKeyChar (isKeyChar_of_comparison hblank h) nested' (token ++ s)
      rw [primary, trimStart_of_not_blank hblank] at hprimary
      rw [List.cons_append, hprimary]
      exact comparison_enclosed h .nil hs

theorem negation_enclosed {read read' : Reader Cause Qualifier} (hread : ReadsEnclosed read read')
    {m n : Nat} {q : Qualifier} (hcs : cs.length ≤ m) (hn : m ≤ n)
    (h : negation read m cs = .ok (q, rest)) (hfront : Blanks front) (hs : Closes s) :
    negation read' n (front ++ (cs ++ s)) = .ok (q, rest ++ s) := by
  have hkeyword : ∀ front cs, Blanks front → keyword? "NOT" (front ++ (cs ++ s)) =
      (keyword? "NOT" cs).map (· ++ s) := fun front cs hfront =>
    keyword?_enclosed hfront hs (by decide) (by decide) cs
  -- The fuel is no shorter than the text, so where it is used up there is no word left.
  induction m generalizing cs n q front with
  | zero =>
    have hnil : cs = [] := List.eq_nil_of_length_eq_zero (Nat.le_zero.1 hcs)
    subst hnil
    have hnone : keyword? "NOT" (front ++ ([] ++ s)) = none := by rw [hkeyword front [] hfront]; rfl
    rw [negation_of_no_word hnone]
    exact hread h hfront hs
  | succ m ih =>
    have hword := hkeyword front cs hfront
    cases hbehind : keyword? "NOT" cs with
    | none =>
      rw [hbehind] at hword
      rw [negation_of_no_word hbehind] at h
      rw [negation_of_no_word hword]
      exact hread h hfront hs
    | some behind =>
      rw [hbehind] at hword
      have hlength := length_keyword?_le hbehind
      rw [show "NOT".toList.length = 3 from rfl] at hlength
      obtain ⟨n, rfl⟩ : ∃ n', n = n' + 1 := ⟨n - 1, by omega⟩
      simp only [negation, hbehind] at h
      obtain ⟨⟨inner, left⟩, hinner, h⟩ := bind_eq_ok_iff.1 h
      cases h
      have hinner' : negation read' n (behind ++ s) = .ok (inner, left ++ s) :=
        ih (by omega) (by omega) hinner .nil
      simp only [negation, hword, Option.map_some, hinner', bind, Except.bind]

variable {connective : Connective} {read read' : Reader Cause Qualifier}

theorem chain_enclosed (hread : ReadsEnclosed read read')
    (hshorter : ∀ cs rest q, read cs = .ok (q, rest) → rest.length < cs.length)
    {m n : Nat} {members : List Qualifier} (hcs : cs.length ≤ m) (hn : m ≤ n)
    (h : chain connective.word read m cs = .ok (members, rest)) (hfront : Blanks front)
    (hs : Closes s) :
    chain connective.word read' n (front ++ (cs ++ s)) = .ok (members, rest ++ s) := by
  induction m generalizing cs n members front with
  | zero =>
    -- A member takes a character, and there is none.
    obtain ⟨⟨last, behind⟩, hlast, -⟩ := bind_eq_ok_iff.1 h
    have hlength := hshorter cs behind last hlast
    omega
  | succ m ih =>
    obtain ⟨n, rfl⟩ : ∃ n', n = n' + 1 := ⟨n - 1, by omega⟩
    obtain ⟨⟨first, behind⟩, hfirst, h⟩ := bind_eq_ok_iff.1 h
    have hlength := hshorter cs behind first hfirst
    have hfirst' := hread hfirst hfront hs
    have hword : keyword? connective.word (behind ++ s) = _ :=
      connective_enclosed connective .nil hs behind
    dsimp only at h
    split at h
    · rename_i behindWord hbehind
      rw [hbehind] at hword
      have hlengthWord := length_keyword?_le hbehind
      obtain ⟨⟨others, left⟩, hothers, h⟩ := bind_eq_ok_iff.1 h
      cases h
      have hothers' : chain connective.word read' n (behindWord ++ s) = .ok (others, left ++ s) :=
        ih (by omega) (by omega) hothers .nil
      simp only [chain, hfirst', hword, Option.map_some, hothers', bind, Except.bind]
    · rename_i hbehind
      rw [hbehind] at hword
      cases h
      simp only [chain, hfirst', hword, Option.map_none, bind, Except.bind]

theorem combination_enclosed (hread : ReadsEnclosed read read')
    (hshorter : ∀ cs rest q, read cs = .ok (q, rest) → rest.length < cs.length) :
    ReadsEnclosed (combination connective read) (combination connective read') := by
  intro cs rest q h front s hfront hs
  obtain ⟨⟨members, behind⟩, hmembers, h⟩ := bind_eq_ok_iff.1 h
  cases h
  have hlength : cs.length ≤ (front ++ (cs ++ s)).length := by
    simp only [List.length_append]
    omega
  have hmembers' := chain_enclosed hread hshorter (Nat.le_refl _) hlength hmembers hfront hs
  simp only [combination, hmembers', bind, Except.bind]

/-- An expression is read in front of a closing parenthesis, nested as deep or deeper. -/
theorem expression_enclosed {depth depth' : Nat} (hdepth : depth ≤ depth') :
    ReadsEnclosed (expression depth) (expression depth') := by
  induction depth generalizing depth' with
  | zero =>
    intro cs rest q h
    cases h
  | succ depth ih =>
    obtain ⟨depth', rfl⟩ : ∃ d, depth' = d + 1 := ⟨depth' - 1, by omega⟩
    have htakes : ∀ cs q rest, item depth cs = .ok (q, rest) → Takes 2 cs rest := fun _ _ _ h =>
      item_takes (fun _ _ _ hnested => (expression_takes hnested).mono (Nat.zero_le _)) h
    have hitem : ReadsEnclosed (item depth) (item depth') := by
      intro cs rest q h front s hfront hs
      have hlength : cs.length ≤ (front ++ (cs ++ s)).length := by
        simp only [List.length_append]
        omega
      exact negation_enclosed (primary_enclosed (ih (by omega))) (Nat.le_refl _) hlength h hfront hs
    have hall : ReadsEnclosed (combination .all (item depth)) (combination .all (item depth')) :=
      combination_enclosed hitem fun cs rest q h => (htakes cs q rest h).length_lt (by decide)
    exact combination_enclosed hall fun cs rest q h =>
      (combination_takes htakes h).length_lt (by decide)

/-! ## Whole texts in parentheses -/

/-- A text that is a condition is read as this condition between parentheses. -/
theorem enclosed_text_isRead {q : Qualifier} (h : parse (trim cs) = .ok q) :
    Phrase.IsRead ('(' :: (cs ++ [')'])) (.one .negated q) := by
  intro depth before rest hdepth hbefore _ _
  -- The blanks at the ends of the text stand beside the parentheses.
  obtain ⟨front, behind, hfront, hbehind, hcs⟩ := exists_trim cs
  obtain ⟨left, hexpression, hleft⟩ := Reader.whole_eq_ok_iff.1 h
  have hclosing : trimStart (left ++ (behind ++ ')' :: rest)) = ')' :: rest := by
    rw [trimStart_append_of_blank (trimStart_eq_nil_iff.1 hleft),
      trimStart_append_of_blank hbehind, trimStart_of_not_blank (by decide)]
  have hlength : (trim cs).length + 1 ≤ depth := by
    have hle := congrArg List.length hcs
    simp only [List.length_append, List.length_cons, List.length_nil] at hle hdepth
    omega
  have hinner : expression depth (cs ++ ')' :: rest) =
      .ok (q, left ++ (behind ++ ')' :: rest)) := by
    have hall := expression_enclosed hlength hexpression hfront ⟨behind, rest, hbehind, rfl⟩
    rw [← hall, ← List.append_assoc, ← List.append_assoc, List.append_assoc front, ← hcs]
  have hread := item_of_expression hbefore hinner hclosing
  rw [Place.reader]
  simpa using hread

/-- Texts in parentheses with a word of the grammar between them. -/
def enclosedTexts (connective : Connective) (texts : List (List Char)) : List Char :=
  joinWith (' ' :: (connective.word.toList ++ [' '])) (texts.map fun text => '(' :: (text ++ [')']))

theorem enclosedTexts_isRead {texts : List (List Char)} {members : List Qualifier}
    (h : List.Forall₂ (fun text q => parse (trim text) = .ok q) texts members) (hne : texts ≠ [])
    (connective : Connective) :
    Phrase.IsRead (enclosedTexts connective texts) (.chain connective members) := by
  induction h with
  | nil => exact absurd rfl hne
  | @cons text q texts members hq hrest ih =>
    have hfirst := (enclosed_text_isRead hq).at_place (.among connective)
    cases texts with
    | nil =>
      cases hrest
      exact last_isRead hfirst
    | cons next others =>
      have hword : IsWord connective.word connective.word.toList := by
        cases connective <;> decide
      have hall := cons_isRead .blank hword .blank hfirst (ih (by simp))
      simpa [enclosedTexts, joinWith] using hall

/-- Texts of conditions in parentheses with a word between them are the conditions, combined. -/
theorem parse_enclosedTexts {texts : List (List Char)} {members : List Qualifier}
    (h : List.Forall₂ (fun text q => parse (trim text) = .ok q) texts members) (hne : texts ≠ [])
    (connective : Connective) :
    parse (enclosedTexts connective texts) = .ok (combine connective members) := by
  have hwhole : ∀ q, Phrase.IsRead (enclosedTexts connective texts) (.one .alone q) →
      parse (enclosedTexts connective texts) = .ok q := fun q hq => by
    simpa using hq.parse .nil .nil
  refine hwhole _ ?_
  cases h with
  | nil => exact absurd rfl hne
  | @cons text q texts members hq hrest =>
    cases hrest with
    | nil => exact (enclosed_text_isRead hq).at_place .alone
    | @cons next q' texts members hq' hrest =>
      refine bare_isRead trivial (by simp) ?_
      exact enclosedTexts_isRead (.cons hq (.cons hq' hrest)) hne connective

end RankedRules.Qualifier
