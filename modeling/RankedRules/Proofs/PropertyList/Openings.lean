/-
The opening parentheses of a value.

A reader never makes up a parenthesis: what it reads has at most as many as the characters that it
takes. For an array one is taken that counts for itself, members of an object that are replaced only
make the number smaller, and numbers, comments and signs do not matter.

* `Text.openings`, `Value.openings` — the number of opening parentheses in a text and of a value;
* `Value.openings_eq_of_same` — equal values have equally many;
* `PropertyList.openings_text` — and the text of a value has as many as the value;
* `PropertyList.openings_of_parse` — a value that is read has no more than its text.
-/
import RankedRules.Proofs.PropertyList.Written
import RankedRules.Proofs.Success
import RankedRules.Proofs.Text.Trim

namespace RankedRules

open Text

/-- The number of opening parentheses in a text. -/
def Text.openings (cs : List Char) : Nat := cs.count '('

namespace Text

@[simp] theorem openings_nil : openings [] = 0 := rfl

@[simp] theorem openings_cons (c : Char) (cs : List Char) :
    openings (c :: cs) = openings cs + if c = '(' then 1 else 0 := by
  simp [openings, List.count_cons]

@[simp] theorem openings_append (front behind : List Char) :
    openings (front ++ behind) = openings front + openings behind :=
  List.count_append

theorem openings_le_of_sublist {cs ds : List Char} (h : cs.Sublist ds) :
    openings cs ≤ openings ds :=
  h.count_le _

theorem openings_eq_zero {cs : List Char} (h : '(' ∉ cs) : openings cs = 0 :=
  List.count_eq_zero.2 h

theorem trim_sublist (cs : List Char) : (trim cs).Sublist cs := by
  obtain ⟨front, behind, _, _, hcs⟩ := exists_trim cs
  have hmiddle : (trim cs).Sublist (front ++ (trim cs ++ behind)) :=
    (List.sublist_append_left _ _).trans (List.sublist_append_right _ _)
  rwa [← hcs] at hmiddle

/-- Escapes do not matter. -/
theorem openings_flatMap (escape : Char → List Char)
    (h : ∀ c, openings (escape c) = openings [c]) (cs : List Char) :
    openings (cs.flatMap escape) = openings cs := by
  induction cs with
  | nil => rfl
  | cons c cs ih =>
    rw [List.flatMap_cons, openings_append, h, ih]
    simp [Nat.add_comm]

end Text

mutual

/-- The number of opening parentheses of a value: those in its strings, and one for each list. -/
def Value.openings : Value → Nat
  | .string text => Text.openings text.toList
  | .array items => Value.openingsOfItems items + 1
  | .object members => Value.openingsOfMembers members
  | _ => 0

def Value.openingsOfItems : List Value → Nat
  | [] => 0
  | item :: rest => item.openings + Value.openingsOfItems rest

def Value.openingsOfMembers : List (String × Value) → Nat
  | [] => 0
  | (name, value) :: rest =>
    Text.openings name.toList + value.openings + Value.openingsOfMembers rest

end

/-! ## Equal values -/

mutual

/-- Equal values have equally many parentheses. -/
theorem Value.openings_eq_of_same : ∀ {v w : Value}, v.same w = true → v.openings = w.openings
  | .null, .null, _ => rfl
  | .bool _, .bool _, _ => rfl
  | .number _, .number _, _ => rfl
  | .string s, .string t, h => by
    rw [same, beq_iff_eq] at h
    rw [h]
  | .array vs, .array ws, h => by
    rw [same] at h
    rw [openings, openings, openingsOfItems_eq_of_same h]
  | .object vs, .object ws, h => by
    rw [same] at h
    rw [openings, openings, openingsOfMembers_eq_of_same h]

theorem Value.openingsOfItems_eq_of_same : ∀ {vs ws : List Value}, sameItems vs ws = true →
    openingsOfItems vs = openingsOfItems ws
  | [], [], _ => rfl
  | v :: vs, w :: ws, h => by
    rw [sameItems, Bool.and_eq_true] at h
    rw [openingsOfItems, openingsOfItems, openings_eq_of_same h.1,
      openingsOfItems_eq_of_same h.2]

theorem Value.openingsOfMembers_eq_of_same : ∀ {vs ws : List (String × Value)},
    sameMembers vs ws = true → openingsOfMembers vs = openingsOfMembers ws
  | [], [], _ => rfl
  | (m, v) :: vs, (n, w) :: ws, h => by
    rw [sameMembers, Bool.and_eq_true, Bool.and_eq_true, beq_iff_eq] at h
    rw [openingsOfMembers, openingsOfMembers, h.1.1, openings_eq_of_same h.1.2,
      openingsOfMembers_eq_of_same h.2]

end

/-! ## The text of a value -/

theorem Number.openings_chars (n : Number) : Text.openings n.chars = 0 :=
  Text.openings_eq_zero fun h => by cases Number.isScientificChar_of_mem_chars h

namespace PropertyList

theorem openings_quote (s : String) : openings (quote s).toList = openings s.toList := by
  have hescape := openings_flatMap quoteChar (fun c => by
    rw [quoteChar]
    split
    · rename_i hc; subst hc; rfl
    · split
      · rename_i hc; subst hc; rfl
      · split
        · rename_i hc; subst hc; rfl
        · split
          · rename_i hc; subst hc; rfl
          · rfl) s.toList
  simp [quote, hescape]

theorem openings_join {texts : List String} :
    openings (join ", " texts).toList = openings (texts.flatMap String.toList) := by
  induction texts with
  | nil => rfl
  | cons first others ih =>
    cases others with
    | nil => simp [join]
    | cons next others =>
      have hcomma : openings ", ".toList = 0 := rfl
      simp only [join, String.toList_append, openings_append, ih, hcomma, List.flatMap_cons]
      omega

mutual

/-- The text of a value has as many parentheses as the value. -/
theorem openings_text : ∀ v : Value, openings (text v).toList = v.openings
  | .null => rfl
  | .bool holds => by cases holds <;> rfl
  | .number n => by simp [text, Number.text, Number.openings_chars, Value.openings]
  | .string s => by rw [text, openings_quote, Value.openings]
  | .array items => by
    have hitems := openings_itemTexts items
    simp [text, openings_join, hitems, Value.openings]
  | .object members => by
    have hmembers := openings_memberTexts members
    simp [text, hmembers, Value.openings]

theorem openings_itemTexts : ∀ items : List Value,
    openings ((itemTexts items).flatMap String.toList) = Value.openingsOfItems items
  | [] => rfl
  | item :: rest => by
    rw [itemTexts, List.flatMap_cons, openings_append, openings_text item, openings_itemTexts rest,
      Value.openingsOfItems]

theorem openings_memberTexts : ∀ members : List (String × Value),
    openings (memberTexts members).toList = Value.openingsOfMembers members
  | [] => rfl
  | (name, v) :: rest => by
    have hv := openings_text v
    have hrest := openings_memberTexts rest
    simp [memberTexts, openings_quote, hv, hrest, Value.openingsOfMembers, Nat.add_assoc]

end

/-! ## What is read -/

/-- What follows blanks and comments is an end of the text, inside of a comment or not. -/
theorem skip_suffix_of_length {n : Nat} {cs : List Char} (h : cs.length ≤ n) :
    skip cs <:+ cs ∧ skipLine cs <:+ cs ∧ skipBlock cs <:+ cs := by
  -- The three functions call each other on what is left, so they are followed together, on a bound
  -- for its length.
  induction n generalizing cs with
  | zero =>
    have hnil : cs = [] := List.eq_nil_of_length_eq_zero (Nat.le_zero.1 h)
    subst hnil
    exact ⟨⟨[], rfl⟩, ⟨[], rfl⟩, ⟨[], rfl⟩⟩
  | succ n ih =>
    refine ⟨?_, ?_, ?_⟩
    · rw [skip.eq_def]
      split
      · rename_i rest
        exact (ih (by simp at h; omega)).2.1.trans ⟨['/', '/'], rfl⟩
      · rename_i rest
        exact (ih (by simp at h; omega)).2.2.trans ⟨['/', '*'], rfl⟩
      · rename_i c rest _ _
        split
        · exact (ih (by simp at h; omega)).1.trans (List.suffix_cons c rest)
        · exact List.suffix_refl _
      · exact List.suffix_refl _
    · rw [skipLine.eq_def]
      split
      · exact (ih (by simp at h; omega)).1.trans (List.suffix_cons _ _)
      · exact (ih (by simp at h; omega)).2.1.trans (List.suffix_cons _ _)
      · exact List.suffix_refl _
    · rw [skipBlock.eq_def]
      split
      · rename_i rest
        exact (ih (by simp at h; omega)).1.trans ⟨['*', '/'], rfl⟩
      · exact (ih (by simp at h; omega)).2.2.trans (List.suffix_cons _ _)
      · exact List.suffix_refl _

theorem openings_skip_le (cs : List Char) : openings (skip cs) ≤ openings cs :=
  openings_le_of_sublist (skip_suffix_of_length (Nat.le_refl cs.length)).1.sublist

/-- No escape stands for a parenthesis, other than the parenthesis itself. -/
theorem openings_unescape_le (c : Char) : openings [unescape c] ≤ openings [c] := by
  rw [unescape.eq_def]
  split
  · decide
  · decide
  · decide
  · exact Nat.le_refl _

theorem openings_quotedChars {quote : Char} {cs chars rest : List Char}
    (h : quotedChars quote cs = .ok (chars, rest)) :
    openings chars + openings rest ≤ openings cs := by
  induction cs using quotedChars.induct quote generalizing chars rest with
  | case1 => cases h
  | case2 => cases h
  | case3 c cs ih =>
    -- The character behind a backslash is changed.
    rw [quotedChars] at h
    obtain ⟨⟨found, left⟩, hfound, h⟩ := bind_eq_ok_iff.1 h
    cases h
    have hle := ih hfound
    have hc := openings_unescape_le c
    rw [← List.singleton_append, openings_append]
    simp only [openings_cons, openings_nil] at hc ⊢
    omega
  | case4 cs hend hescape =>
    -- The closing quote.
    rw [quotedChars, if_pos rfl] at h
    · cases h
      simp
    · exact hend
    · exact hescape
  | case5 c cs hend hescape hne ih =>
    rw [quotedChars, if_neg hne] at h
    · obtain ⟨⟨found, left⟩, hfound, h⟩ := bind_eq_ok_iff.1 h
      cases h
      have hle := ih hfound
      simp only [openings_cons]
      omega
    · exact hend
    · exact hescape

theorem openings_word {cs chars rest : List Char} (h : word cs = .ok (chars, rest)) :
    openings chars + openings rest = openings cs := by
  rw [word] at h
  split at h
  · cases h
  · cases h
    rw [← openings_append, List.takeWhile_append_dropWhile]

theorem openings_wordValue (chars : List Char) : (wordValue chars).openings ≤ openings chars := by
  rw [wordValue]
  split
  · exact Nat.zero_le _
  · exact Nat.le_of_eq (by rw [Value.openings, String.toList_ofList])

theorem openings_expect {c : Char} {cs rest : List Char} (h : expect c cs = .ok rest) :
    openings rest ≤ openings cs := by
  have hskip := openings_skip_le cs
  rw [expect] at h
  split at h
  · cases h
  · rename_i heq
    rw [heq, openings_cons] at hskip
    split at h
    · cases h
      omega
    · cases h

/-- Members that are written in order are no more than the members that are put in order. -/
theorem openings_insert_le (name : String) (v : Value) (members : List (String × Value)) :
    Value.openingsOfMembers (Entries.insert name v members) ≤
      openings name.toList + v.openings + Value.openingsOfMembers members := by
  induction members with
  | nil => exact Nat.le_refl _
  | cons first rest ih =>
    obtain ⟨other, w⟩ := first
    rw [Entries.insert]
    split
    · simp only [Value.openingsOfMembers]
      omega
    · split
      · exact Nat.le_refl _
      · simp only [Value.openingsOfMembers]
        omega

theorem openings_ofList_le (pairs : List (String × Value)) :
    Value.openingsOfMembers (Entries.ofList pairs) ≤ Value.openingsOfMembers pairs := by
  suffices hfold : ∀ front : Entries Value, Value.openingsOfMembers
      (pairs.foldl (fun entries pair => Entries.insert pair.1 pair.2 entries) front) ≤
        Value.openingsOfMembers pairs + Value.openingsOfMembers front from hfold []
  induction pairs with
  | nil => exact fun front => by simp
  | cons pair pairs ih =>
    intro front
    have hinsert := openings_insert_le pair.1 pair.2 front
    have hrest := ih (Entries.insert pair.1 pair.2 front)
    simp only [List.foldl_cons, Value.openingsOfMembers]
    omega

theorem openings_quoted {quote : Char} {cs rest : List Char} {s : String}
    (h : quoted quote cs = .ok (s, rest)) :
    openings s.toList + openings rest ≤ openings cs := by
  rw [quoted] at h
  obtain ⟨⟨chars, behind⟩, hfound, h⟩ := bind_eq_ok_iff.1 h
  cases h
  rw [String.toList_ofList]
  exact openings_quotedChars hfound

theorem openings_name {cs rest : List Char} {s : String} (h : name cs = .ok (s, rest)) :
    openings s.toList + openings rest ≤ openings cs := by
  rw [name.eq_def] at h
  split at h
  · cases h
  · split at h
    · have hquoted := openings_quoted h
      rw [openings_cons]
      omega
    · obtain ⟨⟨chars, behind⟩, hfound, h⟩ := bind_eq_ok_iff.1 h
      cases h
      exact Nat.le_of_eq (by rw [String.toList_ofList, openings_word hfound])

/-- A reader takes at least as many parentheses as the value has that it reads. -/
def IsBounded (item : Reader Cause Value) : Prop :=
  ∀ cs v rest, item cs = .ok (v, rest) → v.openings + openings rest ≤ openings cs

theorem openings_items {item : Reader Cause Value} (hitem : IsBounded item) {n : Nat}
    {cs rest : List Char} {vs : List Value} (h : items item n cs = .ok (vs, rest)) :
    Value.openingsOfItems vs + openings rest ≤ openings cs := by
  induction n generalizing cs vs with
  | zero => cases h
  | succ n ih =>
    have hskip := openings_skip_le cs
    rw [items] at h
    split at h
    · rename_i heq
      cases h
      rw [heq, openings_cons] at hskip
      rw [Value.openingsOfItems]
      omega
    · obtain ⟨⟨v, behind⟩, hfound, h⟩ := bind_eq_ok_iff.1 h
      have hv := hitem _ _ _ hfound
      have hbehind := openings_skip_le behind
      dsimp only at h
      -- Behind an item stands a comma, the parenthesis that closes the list, or a fault.
      split at h
      · rename_i heq
        rw [heq, openings_cons] at hbehind
        obtain ⟨⟨others, left⟩, hothers, h⟩ := bind_eq_ok_iff.1 h
        dsimp only at h
        cases h
        have hle := ih hothers
        rw [Value.openingsOfItems]
        omega
      · rename_i heq
        cases h
        rw [heq, openings_cons] at hbehind
        rw [Value.openingsOfItems, Value.openingsOfItems]
        omega
      · cases h

theorem openings_members {item : Reader Cause Value} (hitem : IsBounded item) {n : Nat}
    {cs rest : List Char} {pairs : List (String × Value)}
    (h : members item n cs = .ok (pairs, rest)) :
    Value.openingsOfMembers pairs + openings rest ≤ openings cs := by
  induction n generalizing cs pairs with
  | zero => cases h
  | succ n ih =>
    have hskip := openings_skip_le cs
    rw [members] at h
    split at h
    · rename_i heq
      cases h
      rw [heq, openings_cons] at hskip
      rw [Value.openingsOfMembers]
      omega
    · obtain ⟨⟨name, behindName⟩, hnamed, h⟩ := bind_eq_ok_iff.1 h
      obtain ⟨behindSign, hequals, h⟩ := bind_eq_ok_iff.1 h
      obtain ⟨⟨v, behind⟩, hfound, h⟩ := bind_eq_ok_iff.1 h
      have hname := openings_name hnamed
      have hexpect := openings_expect hequals
      have hv := hitem _ _ _ hfound
      have hend := openings_skip_le behind
      dsimp only at h hexpect hv
      split at h
      · rename_i heq
        rw [heq, openings_cons] at hend
        obtain ⟨⟨others, left⟩, hothers, h⟩ := bind_eq_ok_iff.1 h
        dsimp only at h
        cases h
        have hle := ih hothers
        rw [Value.openingsOfMembers]
        omega
      · rename_i heq
        cases h
        rw [heq, openings_cons] at hend
        rw [Value.openingsOfMembers, Value.openingsOfMembers]
        omega
      · cases h

/-- The readers of values of all depths take as many parentheses as the values have. -/
theorem value_isBounded (fuel : Nat) : IsBounded (value fuel) := by
  induction fuel with
  | zero =>
    intro cs v rest h
    cases h
  | succ fuel ih =>
    intro cs v rest h
    have hskip := openings_skip_le cs
    rw [value] at h
    split at h
    · cases h
    · rename_i c behind heq
      rw [heq, openings_cons] at hskip
      split at h
      · obtain ⟨⟨pairs, left⟩, hfound, h⟩ := bind_eq_ok_iff.1 h
        cases h
        have hmembers := openings_members ih hfound
        have horder := openings_ofList_le pairs
        rw [Value.openings]
        omega
      · split at h
        · -- The parenthesis that opens the list is its own.
          rename_i hopening
          rw [if_pos hopening] at hskip
          obtain ⟨⟨vs, left⟩, hfound, h⟩ := bind_eq_ok_iff.1 h
          cases h
          have hitems := openings_items ih hfound
          rw [Value.openings]
          omega
        · split at h
          · obtain ⟨⟨s, left⟩, hfound, h⟩ := bind_eq_ok_iff.1 h
            cases h
            have hquoted := openings_quoted hfound
            rw [Value.openings]
            omega
          · obtain ⟨⟨chars, left⟩, hfound, h⟩ := bind_eq_ok_iff.1 h
            cases h
            have hword := openings_word hfound
            have hvalue := openings_wordValue chars
            rw [openings_cons] at hword
            omega

/-- A value that is read has no more parentheses than its text. -/
theorem openings_of_parse {cs : List Char} {v : Value} (h : parse cs = .ok v) :
    v.openings ≤ openings cs := by
  obtain ⟨rest, hfound, _⟩ := Reader.whole_eq_ok_iff.1 h
  have hle := value_isBounded _ _ _ _ hfound
  omega

end PropertyList

end RankedRules
