/-
Every text of a condition is read as that condition.

A reader of the grammar reads one text of its kind and stops where the text stops, if what follows
is delimited and does not continue the chain that the reader is in. This is shown for all phrases at
once, along the rules of writing.

* `Qualifier.Place.reader`, `Qualifier.Place.Ends` — the reader of the conditions at a place, and
  what has to follow them;
* `Qualifier.Written.isRead` — a text is read with the rest behind it;
* `Qualifier.parse_written` — a whole text is read, with blanks around it;
* `Qualifier.IsLiteral`, `Qualifier.IsPlain` — the literals of the grammar, and those of them that
  are no doubles;
* `Qualifier.parse_rendering` — the canonical text and every other text of a condition are read as
  that condition.
-/
import RankedRules.Proofs.Qualifier.Written
import RankedRules.Proofs.Success

namespace RankedRules.Qualifier

open Text

/-! ## The levels of the grammar -/

/-- Conditions behind any number of `NOT`, the members of conjunctions. -/
def item (depth : Nat) : Reader Cause Qualifier := fun cs =>
  negation (primary (expression depth)) cs.length cs

theorem expression_succ (depth : Nat) :
    expression (depth + 1) = combination .any (combination .all (item depth)) := rfl

/-- The reader of the conditions at a place. -/
def Place.reader (depth : Nat) : Place → Reader Cause Qualifier
  | .alone => expression (depth + 1)
  | .among .any => combination .all (item depth)
  | .among .all => item depth
  | .negated => item depth

/-- What follows does not continue a chain that the reader of a place is in. -/
def Place.Ends : Place → List Char → Prop
  | .alone, rest => keyword? "AND" rest = none ∧ keyword? "OR" rest = none
  | .among .any, rest => keyword? "AND" rest = none
  | .among .all, _ => True
  | .negated, _ => True

theorem length_afterWord?_le {word cs rest : List Char} (h : afterWord? word cs = some rest) :
    rest.length + word.length ≤ cs.length := by
  induction word generalizing cs with
  | nil =>
    rw [afterWord?] at h
    split at h
    · cases h
    · cases h
      simp
  | cons w word ih =>
    cases cs with
    | nil => cases h
    | cons c cs =>
      rw [afterWord?] at h
      split at h
      · have hle := ih h
        simp only [List.length_cons]
        omega
      · cases h

theorem length_keyword?_le {word : String} {cs rest : List Char}
    (h : keyword? word cs = some rest) : rest.length + word.toList.length ≤ cs.length :=
  Nat.le_trans (length_afterWord?_le h) (length_trimStart_le cs)

theorem negation_of_no_word {primary : Reader Cause Qualifier} {cs : List Char}
    (h : keyword? "NOT" cs = none) (n : Nat) : negation primary n cs = primary cs := by
  cases n with
  | zero => rfl
  | succ n => simp only [negation, h]

/-- A word takes characters, so no more fuel is used than there are characters. -/
theorem negation_eq_of_length_le (primary : Reader Cause Qualifier) {cs : List Char} {m n : Nat}
    (hm : cs.length ≤ m) (hn : cs.length ≤ n) :
    negation primary m cs = negation primary n cs := by
  induction m generalizing cs n with
  | zero =>
    have hnil : cs = [] := List.eq_nil_of_length_eq_zero (Nat.le_zero.1 hm)
    subst hnil
    rw [negation_of_no_word rfl, negation_of_no_word rfl]
  | succ m ih =>
    cases hword : keyword? "NOT" cs with
    | none => rw [negation_of_no_word hword, negation_of_no_word hword]
    | some rest =>
      have hle := length_keyword?_le hword
      rw [show "NOT".toList.length = 3 from rfl] at hle
      cases n with
      | zero => omega
      | succ n =>
        have hrest : negation primary m rest = negation primary n rest :=
          ih (by omega) (by omega)
        simp only [negation, hword, hrest]

variable {connective : Connective} {reader : Reader Cause Qualifier} {cs rest : List Char}

/-- A chain that does not go on is its only item. -/
theorem combination_single {q : Qualifier} (hread : reader cs = .ok (q, rest))
    (hends : keyword? connective.word rest = none) :
    combination connective reader cs = .ok (q, rest) := by
  have hchain : chain connective.word reader cs.length cs = .ok ([q], rest) := by
    cases cs.length with
    | zero =>
      rw [chain, hread]
      rfl
    | succ n =>
      simp only [chain, hread, bind, Except.bind, hends]
  rw [combination, hchain]
  rfl

/-- A chain of at least two items is a combination. -/
theorem combination_chain {members : List Qualifier} (hcount : 2 ≤ members.length)
    (hchain : chain connective.word reader cs.length cs = .ok (members, rest)) :
    combination connective reader cs = .ok (.compound connective members, rest) := by
  have hcombine : combine connective members = .compound connective members := by
    match members, hcount with
    | _ :: _ :: _, _ => rfl
  rw [combination, hchain, ← hcombine]
  rfl

/-! ## What is read -/

/-- The grammar has texts for every condition of a phrase. -/
def Phrase.WellFormed (IsLiteral : Value → Prop) : Phrase → Prop
  | .one _ q => q.WellFormed IsLiteral
  | .chain _ members => ∀ q ∈ members, q.WellFormed IsLiteral

/-- A text is read as a phrase, behind blanks and in front of what ends it, and nothing more is
read. -/
def Phrase.IsRead (cs : List Char) : Phrase → Prop
  | .one place q => ∀ ⦃depth : Nat⦄ ⦃front rest : List Char⦄, cs.length ≤ depth → Blanks front →
      Delimited rest → place.Ends rest → place.reader depth (front ++ (cs ++ rest)) = .ok (q, rest)
  | .chain connective members => ∀ ⦃depth n : Nat⦄ ⦃front rest : List Char⦄, cs.length ≤ depth →
      (front ++ (cs ++ rest)).length ≤ n → Blanks front → Delimited rest →
      (Place.among connective).Ends rest → keyword? connective.word rest = none →
      Qualifier.chain connective.word ((Place.among connective).reader depth) n
        (front ++ (cs ++ rest)) = .ok (members, rest)

/-- A literal is read back from its text. -/
def ReadsBack (value : Value) : Prop := ∀ ⦃front rest : List Char⦄, Blanks front → Delimited rest →
  operand (front ++ ((literal value).toList ++ rest)) = .ok (.literal value, rest)

/-- What the readers of all places begin with is read at all places. -/
theorem Phrase.IsRead.at_place {q : Qualifier} (h : IsRead cs (.one .negated q)) (place : Place) :
    IsRead cs (.one place q) := by
  intro depth front rest hdepth hfront hrest hends
  have hitem : item depth (front ++ (cs ++ rest)) = .ok (q, rest) :=
    h hdepth hfront hrest trivial
  match place, hends with
  | .negated, _ => exact hitem
  | .among .all, _ => exact hitem
  | .among .any, hall => exact combination_single hitem hall
  | .alone, ⟨hall, hany⟩ =>
    rw [Place.reader, expression_succ]
    exact combination_single (combination_single hitem hall) hany

/-! ## Single conditions -/

theorem Gap.delimited {gap rest : List Char} (h : Gap gap) : Delimited (gap ++ rest) := by
  cases gap with
  | nil => exact absurd rfl h.nonempty
  | cons b gap =>
    rintro c ⟨⟩
    exact .inl (h.blanks _ List.mem_cons_self)

/-- A text that begins with no letter of a word, behind blanks, is read by the next level. -/
theorem item_of_no_word {depth : Nat} {front cs : List Char} (hfront : Blanks front)
    (hword : keyword? "NOT" cs = none) (htrim : trimStart cs = cs) :
    item depth (front ++ cs) = primary (expression depth) cs := by
  have hnone : keyword? "NOT" (front ++ cs) = none := by
    rw [keyword?_blanks hfront, hword]
  rw [item, negation_of_no_word hnone, primary.eq_def, primary.eq_def,
    trimStart_append_of_blank hfront, htrim]

theorem constant_isRead (holds : Bool) :
    Phrase.IsRead (text (.constant holds)).toList (.one .negated (.constant holds)) := by
  intro depth front rest _ hfront _ _
  have hsplit : ∃ cs, (text (.constant holds)).toList = '*' :: cs := by
    cases holds
    · exact ⟨"false*".toList, rfl⟩
    · exact ⟨"true*".toList, rfl⟩
  obtain ⟨cs, hcs⟩ := hsplit
  have htrim : trimStart ((text (.constant holds)).toList ++ rest) =
      (text (.constant holds)).toList ++ rest := by
    rw [hcs]
    exact trimStart_of_not_blank (by decide) _
  have hword : keyword? "NOT" ((text (.constant holds)).toList ++ rest) = none := by
    refine keyword?_eq_none (w := 'N') rfl ?_
    rw [htrim, hcs]
    rintro c ⟨⟩
    decide
  rw [Place.reader, item_of_no_word hfront hword htrim, primary, htrim]
  cases holds <;> rfl

/-- What begins like a key path is a comparison. -/
theorem primary_of_isKeyChar {c : Char} (hc : isKeyChar c = true)
    (nested : Reader Cause Qualifier) (cs : List Char) :
    primary nested (c :: cs) = comparison (c :: cs) := by
  have hsign : ∀ d : Char, isKeyChar d = false → c ≠ d := by
    rintro d hd rfl
    rw [hc] at hd
    cases hd
  have htrim : trimStart (c :: cs) = c :: cs :=
    trimStart_of_not_blank (isBlank_of_isKeyChar hc) _
  have hstar : ∀ front : String, front.toList.head? = some '*' → after? front (c :: cs) = none := by
    intro front hfront
    obtain ⟨ds, hlist⟩ := List.head?_eq_some_iff.1 hfront
    have hne : '*' ≠ c := (hsign '*' (by decide +kernel)).symm
    simp [after?, hlist, List.isPrefixOf, hne]
  rw [primary, htrim]
  split
  · rename_i heq
    exact absurd (List.cons.inj heq).1 (hsign '(' (by decide +kernel))
  · rw [hstar "*true*" rfl, hstar "*false*" rfl]

/-- A key path that is not `NOT` begins a comparison. -/
theorem item_of_leftKey {path : String} (hpath : IsLeftKey path) {depth : Nat}
    {front rest : List Char} (hfront : Blanks front) (hrest : Delimited rest)
    (hblank : ∀ c ∈ rest.head?, isBlank c = true) :
    item depth (front ++ (path.toList ++ rest)) = comparison (path.toList ++ rest) := by
  cases hlist : path.toList with
  | nil => exact absurd hlist hpath.nonempty
  | cons c cs =>
    have hc : isKeyChar c = true := hpath.chars c (by simp [hlist])
    have htrim : trimStart (c :: (cs ++ rest)) = c :: (cs ++ rest) :=
      trimStart_of_not_blank (isBlank_of_isKeyChar hc) _
    -- The word `NOT` is not there, and the comparison is what is left.
    have hword : keyword? "NOT" (c :: (cs ++ rest)) = none := by
      have hkey : ∀ d ∈ c :: cs, isKeyChar d = true := fun d hd => hpath.chars d (hlist ▸ hd)
      have hother : ∀ d ∈ rest.head?, ∀ w ∈ "NOT".toList, d.toUpper ≠ w := by
        intro d hd w hw heq
        rw [toUpper_of_isBlank (hblank d hd)] at heq
        have hnot : ∀ w ∈ "NOT".toList, isBlank w = false := by decide
        have hd' : isBlank d = true := hblank d hd
        rw [heq, hnot w hw] at hd'
        cases hd'
      have hne : (c :: cs).map Char.toUpper ≠ "NOT".toList := fun h =>
        hpath.noWord (by rw [hlist]; exact h)
      rw [keyword?, htrim, ← List.cons_append]
      exact afterWord?_eq_none (isKeyChar_of_delimited hrest) hkey hother hne
    rw [List.cons_append, item_of_no_word hfront hword htrim, primary_of_isKeyChar hc]

/-- The comparison of the value at a key path with an operand. -/
def Operand.condition (path : String) (op : Operator) : Operand → Qualifier
  | .literal value => .compare path op value
  | .path right => .compareKeys path op right

/-- A comparison of the value at a key path is read as one, whatever stands on the right side. -/
theorem item_comparison {path : String} (hpath : IsLeftKey path) (op : Operator)
    {gap gap' : List Char} (hgap : Gap gap) (hgap' : Gap gap') {depth : Nat} {front : List Char}
    (hfront : Blanks front) (operandText : List Char) :
    item depth (front ++ (path.toList ++ (gap ++ (op.symbol.toList ++ (gap' ++ operandText))))) =
      (operand (gap' ++ operandText)).map fun (right, rest) => (right.condition path op, rest) := by
  have hblank : ∀ c ∈ (gap ++ (op.symbol.toList ++ (gap' ++ operandText))).head?,
      isBlank c = true := by
    intro c hc
    cases gap with
    | nil => exact absurd rfl hgap.nonempty
    | cons b gap =>
      cases hc
      exact hgap.blanks _ List.mem_cons_self
  have hbehind : ∃ b bs, gap' ++ operandText = b :: bs ∧ isBlank b = true := by
    cases gap' with
    | nil => exact absurd rfl hgap'.nonempty
    | cons b gap' => exact ⟨b, _, rfl, hgap'.blanks b List.mem_cons_self⟩
  have hkey : keyPath (path.toList ++ (gap ++ (op.symbol.toList ++ (gap' ++ operandText)))) =
      .ok (path, gap ++ (op.symbol.toList ++ (gap' ++ operandText))) :=
    keyPath_append hpath.toIsKeyPath .nil hgap.delimited
  rw [item_of_leftKey hpath hfront hgap.delimited hblank, comparison, hkey]
  simp only [bind, Except.bind, operator_append op hgap.blanks hbehind]
  cases operand (gap' ++ operandText) with
  | error fault => rfl
  | ok read =>
    obtain ⟨right, rest⟩ := read
    cases right <;> rfl

theorem compare_isRead {path : String} (hpath : IsLeftKey path) (op : Operator) {value : Value}
    (hvalue : ReadsBack value) {gap gap' : List Char} (hgap : Gap gap) (hgap' : Gap gap') :
    Phrase.IsRead
      (path.toList ++ (gap ++ (op.symbol.toList ++ (gap' ++ (literal value).toList))))
      (.one .negated (.compare path op value)) := by
  intro depth front rest _ hfront hrest _
  simp only [List.append_assoc]
  rw [Place.reader, item_comparison hpath op hgap hgap' hfront, hvalue hgap'.blanks hrest]
  rfl

theorem compareKeys_isRead {left right : String} (hleft : IsLeftKey left) (op : Operator)
    (hright : IsRightKey right) {gap gap' : List Char} (hgap : Gap gap) (hgap' : Gap gap') :
    Phrase.IsRead (left.toList ++ (gap ++ (op.symbol.toList ++ (gap' ++ right.toList))))
      (.one .negated (.compareKeys left op right)) := by
  intro depth front rest _ hfront hrest _
  have hword := operand_word hright.toIsKeyPath hright.noDigitFirst hgap'.blanks hrest
  simp only [List.append_assoc]
  rw [Place.reader, item_comparison hleft op hgap hgap' hfront, hword,
    wordOperand_of_isRightKey hright]
  rfl

/-! ## Whole conditions -/

theorem IsWord.ne_nil {word : String} {cs : List Char} (h : IsWord word cs)
    (hword : word.toList ≠ []) : cs ≠ [] := by
  rintro rfl
  exact hword h.symm

/-- Behind `NOT` the condition is read that is negated. -/
theorem item_not {word gap : List Char} (hword : IsWord "NOT" word) (hgap : Gap gap) {depth : Nat}
    {front : List Char} (hfront : Blanks front) (cs : List Char) :
    item depth (front ++ (word ++ (gap ++ cs))) =
      (item depth (gap ++ cs)).map fun (inner, rest) => (.not inner, rest) := by
  have hread : keyword? "NOT" (front ++ (word ++ (gap ++ cs))) = some (gap ++ cs) :=
    keyword?_append hword (by decide) (hword.ne_nil (by decide)) hfront
      (isKeyChar_of_delimited hgap.delimited)
  have hle := length_keyword?_le hread
  rw [show "NOT".toList.length = 3 from rfl] at hle
  rw [item]
  generalize front ++ (word ++ (gap ++ cs)) = whole at hread hle
  cases hlength : whole.length with
  | zero => omega
  | succ n =>
    have hfuel : negation (primary (expression depth)) n (gap ++ cs) = item depth (gap ++ cs) :=
      negation_eq_of_length_le _ (by omega) (Nat.le_refl _)
    simp only [negation, hread, hfuel]
    cases item depth (gap ++ cs) <;> rfl

theorem not_isRead {inner : Qualifier} {word gap cs : List Char} (hword : IsWord "NOT" word)
    (hgap : Gap gap) (h : Phrase.IsRead cs (.one .negated inner)) :
    Phrase.IsRead (word ++ (gap ++ cs)) (.one .negated (.not inner)) := by
  intro depth front rest hdepth hfront hrest _
  simp only [List.length_append] at hdepth
  have hinner : item depth (gap ++ (cs ++ rest)) = .ok (inner, rest) :=
    h (by omega) hgap.blanks hrest trivial
  simp only [List.append_assoc]
  rw [Place.reader, item_not hword hgap hfront, hinner]
  rfl

/-- No word is in front of a closing parenthesis. -/
theorem keyword?_closing {word : String} (hword : word.toList.head? ≠ some ')')
    (hne : word.toList ≠ []) {front : List Char} (hfront : Blanks front) (rest : List Char) :
    keyword? word (front ++ ')' :: rest) = none := by
  rw [keyword?_blanks hfront]
  cases hlist : word.toList with
  | nil => exact absurd hlist hne
  | cons w ws =>
    refine keyword?_eq_none hlist ?_
    rw [trimStart_of_not_blank (by decide)]
    rintro c ⟨⟩ hc
    rw [hlist] at hword
    exact hword (congrArg some hc.symm)

/-- Behind an opening parenthesis an expression is read, and then the closing one. -/
theorem item_opening {depth : Nat} {front : List Char} (hfront : Blanks front) (cs : List Char) :
    item depth (front ++ '(' :: cs) = primary (expression depth) ('(' :: cs) := by
  have hopening : trimStart ('(' :: cs) = '(' :: cs := trimStart_of_not_blank (by decide) _
  refine item_of_no_word hfront (keyword?_eq_none (w := 'N') rfl ?_) hopening
  rw [hopening]
  rintro c ⟨⟩
  decide

theorem item_of_expression {depth : Nat} {q : Qualifier} {front inner behind : List Char}
    (hfront : Blanks front) (hread : expression depth inner = .ok (q, behind))
    (hclosing : trimStart behind = ')' :: rest) :
    item depth (front ++ '(' :: inner) = .ok (q, rest) := by
  have hopening : trimStart ('(' :: inner) = '(' :: inner := trimStart_of_not_blank (by decide) _
  rw [item_opening hfront]
  simp only [primary, hopening, bind, Except.bind, hread, hclosing]

theorem enclosed_isRead {q : Qualifier} {front behind cs : List Char} (hfront : Blanks front)
    (hbehind : Blanks behind) (h : Phrase.IsRead cs (.one .alone q)) :
    Phrase.IsRead ('(' :: (front ++ (cs ++ (behind ++ [')'])))) (.one .negated q) := by
  intro depth before rest hdepth hbefore _ _
  simp only [List.length_cons, List.length_append, List.length_nil] at hdepth
  obtain ⟨inner, rfl⟩ : ∃ inner, depth = inner + 1 := ⟨depth - 1, by omega⟩
  have hdelimited : Delimited (behind ++ ')' :: rest) :=
    (delimited_closing rest).blanks_append hbehind
  -- The parenthesis ends the inner condition as the end of the text would.
  have hends : Place.alone.Ends (behind ++ ')' :: rest) :=
    ⟨keyword?_closing (by decide) (by decide) hbehind rest,
      keyword?_closing (by decide) (by decide) hbehind rest⟩
  have hread : expression (inner + 1) (front ++ (cs ++ (behind ++ ')' :: rest))) =
      .ok (q, behind ++ ')' :: rest) :=
    h (by omega) hfront hdelimited hends
  have hclosing : trimStart (behind ++ ')' :: rest) = ')' :: rest := by
    rw [trimStart_append_of_blank hbehind, trimStart_of_not_blank (by decide)]
  simp only [List.cons_append, List.append_assoc, List.nil_append]
  exact item_of_expression hbefore hread hclosing

/-- The chain of a combination is read as the combination. -/
theorem bare_isRead {place : Place} {connective : Connective} {members : List Qualifier}
    {cs : List Char} (hplace : place.Admits connective) (hcount : 2 ≤ members.length)
    (h : Phrase.IsRead cs (.chain connective members)) :
    Phrase.IsRead cs (.one place (.compound connective members)) := by
  intro depth front rest hdepth hfront hrest hends
  match place, connective, hplace, hends with
  | .alone, .any, _, ⟨hall, hany⟩ =>
    rw [Place.reader, expression_succ]
    exact combination_chain hcount (h hdepth (Nat.le_refl _) hfront hrest hall hany)
  | .alone, .all, _, ⟨hall, hany⟩ =>
    rw [Place.reader, expression_succ]
    exact combination_single
      (combination_chain hcount (h hdepth (Nat.le_refl _) hfront hrest trivial hall)) hany
  | .among .any, .all, _, hall =>
    exact combination_chain hcount (h hdepth (Nat.le_refl _) hfront hrest trivial hall)

theorem last_isRead {connective : Connective} {q : Qualifier} {cs : List Char}
    (h : Phrase.IsRead cs (.one (.among connective) q)) :
    Phrase.IsRead cs (.chain connective [q]) := by
  intro depth n front rest hdepth _ hfront hrest hends hword
  have hread := h hdepth hfront hrest hends
  cases n with
  | zero =>
    rw [Qualifier.chain, hread]
    rfl
  | succ n => simp only [Qualifier.chain, hread, bind, Except.bind, hword]

/-- A member of a chain ends in front of the word of the chain: `OR` does not begin as `AND`. -/
theorem ends_in_front_of_word {connective : Connective} {word gap rest : List Char}
    (hword : IsWord connective.word word) (hgap : Gap gap) :
    (Place.among connective).Ends (gap ++ (word ++ rest)) := by
  cases connective with
  | all => trivial
  | any =>
    have hne : word ≠ [] := hword.ne_nil (by decide)
    refine keyword?_eq_none (w := 'A') rfl ?_
    rw [trimStart_append_of_blank hgap.blanks, trimStart_word hword (by decide) rest hne]
    cases word with
    | nil => exact absurd rfl hne
    | cons c word =>
      have hc : c.toUpper = 'O' := (List.cons.inj hword).1
      rintro d ⟨⟩
      rw [hc]
      decide

theorem cons_isRead {connective : Connective} {q : Qualifier} {others : List Qualifier}
    {cs gap word gap' cs' : List Char} (hgap : Gap gap) (hword : IsWord connective.word word)
    (hgap' : Gap gap') (hq : Phrase.IsRead cs (.one (.among connective) q))
    (hothers : Phrase.IsRead cs' (.chain connective others)) :
    Phrase.IsRead (cs ++ (gap ++ (word ++ (gap' ++ cs')))) (.chain connective (q :: others)) := by
  intro depth n front rest hdepth hlength hfront hrest hends hnone
  have hread : keyword? connective.word (gap ++ (word ++ (gap' ++ (cs' ++ rest)))) =
      some (gap' ++ (cs' ++ rest)) :=
    keyword?_append hword (by cases connective <;> decide)
      (hword.ne_nil (by cases connective <;> decide)) hgap.blanks
      (isKeyChar_of_delimited hgap'.delimited)
  have hle := length_keyword?_le hread
  have hpositive : 0 < connective.word.toList.length := by cases connective <;> decide
  simp only [List.length_append] at hdepth hlength hle
  have hfirst : (Place.among connective).reader depth
      (front ++ (cs ++ (gap ++ (word ++ (gap' ++ (cs' ++ rest)))))) =
      .ok (q, gap ++ (word ++ (gap' ++ (cs' ++ rest)))) :=
    hq (by omega) hfront hgap.delimited (ends_in_front_of_word hword hgap)
  cases n with
  | zero => omega
  | succ n =>
    have hrestLength : (gap' ++ (cs' ++ rest)).length ≤ n := by
      simp only [List.length_append]
      omega
    have hnext : Qualifier.chain connective.word ((Place.among connective).reader depth) n
        (gap' ++ (cs' ++ rest)) = .ok (others, rest) :=
      hothers (by omega) hrestLength hgap'.blanks hrest hends hnone
    simp only [List.append_assoc, Qualifier.chain, hfirst, bind, Except.bind, hread, hnext]

/-- Every text of a phrase is read as the phrase. -/
theorem Written.isRead {IsLiteral : Value → Prop} (hliteral : ∀ v, IsLiteral v → ReadsBack v)
    {phrase : Phrase} {cs : List Char} (h : Written phrase cs)
    (hwell : phrase.WellFormed IsLiteral) : phrase.IsRead cs := by
  induction h with
  | constant place holds => exact (constant_isRead holds).at_place place
  | compare place path op value hgap hgap' =>
    cases hwell with
    | compare _ hpath hvalue =>
      exact (compare_isRead hpath op (hliteral value hvalue) hgap hgap').at_place place
  | compareKeys place left op right hgap hgap' =>
    cases hwell with
    | compareKeys _ hleft hright =>
      exact (compareKeys_isRead hleft op hright hgap hgap').at_place place
  | not place hword hgap _ ih =>
    cases hwell with
    | not hinner => exact (not_isRead hword hgap (ih hinner)).at_place place
  | enclosed place hfront hbehind _ ih =>
    exact (enclosed_isRead hfront hbehind (ih hwell)).at_place place
  | bare hplace _ ih =>
    cases hwell with
    | compound _ hcount hmembers => exact bare_isRead hplace hcount (ih hmembers)
  | last _ ih => exact last_isRead (ih (hwell _ List.mem_cons_self))
  | cons _ hgap hword hgap' _ ihq ihothers =>
    exact cons_isRead hgap hword hgap' (ihq (hwell _ List.mem_cons_self))
      (ihothers fun q hq => hwell q (List.mem_cons_of_mem _ hq))

/-- What is read as a condition is that condition as a whole text, with blanks around it or
without. -/
theorem Phrase.IsRead.parse {q : Qualifier} {cs front behind : List Char}
    (h : Phrase.IsRead cs (.one .alone q)) (hfront : Blanks front) (hbehind : Blanks behind) :
    Qualifier.parse (front ++ (cs ++ behind)) = .ok q := by
  have hdelimited : Delimited behind := by
    simpa using delimited_nil.blanks_append hbehind
  have hnil : trimStart behind = [] := trimStart_of_blanks hbehind
  have hends : Place.alone.Ends behind :=
    ⟨by rw [keyword?, hnil]; rfl, by rw [keyword?, hnil]; rfl⟩
  have hlength : cs.length ≤ (front ++ (cs ++ behind)).length := by
    simp only [List.length_append]
    omega
  have hread : expression ((front ++ (cs ++ behind)).length + 1) (front ++ (cs ++ behind)) =
      .ok (q, behind) :=
    h hlength hfront hdelimited hends
  exact Reader.whole_eq_ok_iff.2 ⟨behind, hread, hnil⟩

/-- A whole text of a condition is that condition. -/
theorem parse_written {IsLiteral : Value → Prop} (hliteral : ∀ v, IsLiteral v → ReadsBack v)
    {q : Qualifier} (hq : q.WellFormed IsLiteral) {cs front behind : List Char}
    (h : Written (.one .alone q) cs) (hfront : Blanks front) (hbehind : Blanks behind) :
    parse (front ++ (cs ++ behind)) = .ok q :=
  (h.isRead hliteral hq).parse hfront hbehind

/-! ## Literals -/

/-- The literals of the grammar: null, truth values, strings and numbers. -/
inductive IsLiteral : Value → Prop
  | null : IsLiteral .null
  | bool (holds : Bool) : IsLiteral (.bool holds)
  | string (text : String) : IsLiteral (.string text)
  | number {n : Number} (hn : n.IsReadable) : IsLiteral (.number n)

theorem readsBack_word {value : Value} {word : String} (hword : literal value = word)
    (hkey : IsKeyPath word) (hfirst : ∀ c ∈ word.toList.head?, c.isDigit = false)
    (hmeans : wordOperand word = .literal value) : ReadsBack value := by
  intro front rest hfront hrest
  rw [hword, operand_word hkey hfirst hfront hrest, hmeans]

theorem readsBack_number {n : Number} (hn : n.IsReadable)
    (hbegins : Decimal.Begins Decimal.isPositionalChar n.chars) : ReadsBack (.number n) := by
  intro front rest hfront hrest
  simpa [literal, Value.json, Number.text] using operand_number hn hbegins hfront hrest

/-- A literal is read back from its text, if it is no double that is written with an exponent. -/
theorem IsLiteral.readsBack {value : Value} (h : IsLiteral value)
    (hplain : ∀ x, value = .number (.double x) → 'e' ∉ x.text) : ReadsBack value := by
  cases h with
  | null => exact readsBack_word rfl (by decide +kernel) (by decide) rfl
  | bool holds =>
    cases holds with
    | false => exact readsBack_word rfl (by decide +kernel) (by decide) rfl
    | true => exact readsBack_word rfl (by decide +kernel) (by decide) rfl
  | string text => exact fun front rest hfront _ => operand_string text hfront
  | @number n hn =>
    cases n with
    | integer n => exact readsBack_number hn (Number.integerChars_begins n)
    | double x => exact readsBack_number hn (Number.text_begins (hplain x rfl))

/-! ## Conditions with plain literals -/

/-- The literals whose texts are plain: null, truth values, strings and integers of 64 bits. -/
inductive IsPlain : Value → Prop
  | null : IsPlain .null
  | bool (holds : Bool) : IsPlain (.bool holds)
  | string (text : String) : IsPlain (.string text)
  | integer {n : Int} (hn : Number.isSigned64 n = true) : IsPlain (.number (.integer n))

theorem IsPlain.readsBack {value : Value} (h : IsPlain value) : ReadsBack value := by
  have hliteral : IsLiteral value := by
    cases h with
    | null => exact .null
    | bool holds => exact .bool holds
    | string text => exact .string text
    | @integer n hn => exact .number (n := .integer n) hn
  refine hliteral.readsBack ?_
  rintro x rfl
  cases h

/-- The canonical text of a condition, and every other text of it, is read as that condition. -/
theorem parse_rendering {q : Qualifier} (hq : q.WellFormed IsPlain) :
    parse q.text.toList = .ok q ∧
      ∀ cs front behind, Written (.one .alone q) cs → Blanks front → Blanks behind →
        parse (front ++ (cs ++ behind)) = .ok q := by
  have hany : ∀ cs front behind, Written (.one .alone q) cs → Blanks front → Blanks behind →
      parse (front ++ (cs ++ behind)) = .ok q := fun cs front behind hcs hfront hbehind =>
    parse_written (fun _ hv => hv.readsBack) hq hcs hfront hbehind
  refine ⟨?_, hany⟩
  have hcanonical := hany q.text.toList [] [] (hq.text_written .alone) .nil
    .nil
  simpa using hcanonical

/-- Keys that are words of the grammar, a string with its signs, words in any case, and just the
parentheses that are needed. -/
theorem parse_rendering_words :
    parse "not (AND = 'it\\'s (a' oR\tNOT.x <= c)  And *true* and OR != -7".toList =
      .ok (.compound .all [
        .not (.compound .any [
          .compare "AND" .equal (.string "it's (a"),
          .compareKeys "NOT.x" .lessOrEqual "c"]),
        .constant true,
        .compare "OR" .notEqual (.number (.integer (-7)))]) := by
  have hblank : Gap [' '] := .blank
  have hblanks : Gap [' ', ' '] := ⟨by simp, by simp [Blanks, isBlank]⟩
  have htab : Gap ['\t'] := ⟨by simp, by simp [Blanks, isBlank]⟩
  have hnone : Blanks [] := .nil
  have hinner : Written (.one .alone _) _ := .bare trivial <|
    .cons (.compare _ "AND" .equal (.string "it's (a") hblank hblank) hblank
      (show IsWord Connective.any.word "oR".toList by decide) htab <|
    .last <| .compareKeys _ "NOT.x" .lessOrEqual "c" hblank hblank
  have hwritten : Written (.one .alone _) _ := .bare trivial <|
    .cons (.not _ (show IsWord "NOT" "not".toList by decide) hblank <|
      .enclosed _ hnone hnone hinner) hblanks
      (show IsWord Connective.all.word "And".toList by decide) hblank <|
    .cons (.constant _ true) hblank
      (show IsWord Connective.all.word "and".toList by decide) hblank <|
    .last <| .compare _ "OR" .notEqual (.number (.integer (-7))) hblank hblank
  have hany : WellFormed IsPlain (.compound .any [.compare "AND" .equal (.string "it's (a"),
      .compareKeys "NOT.x" .lessOrEqual "c"]) := by
    refine .compound .any (by decide) ?_
    simp only [List.forall_mem_cons]
    exact ⟨.compare _ (by decide +kernel) (.string _),
      .compareKeys _ (by decide +kernel) (by decide +kernel), by simp⟩
  have hwell : WellFormed IsPlain (.compound .all [.not (.compound .any
      [.compare "AND" .equal (.string "it's (a"), .compareKeys "NOT.x" .lessOrEqual "c"]),
      .constant true, .compare "OR" .notEqual (.number (.integer (-7)))]) := by
    refine .compound .all (by decide) ?_
    simp only [List.forall_mem_cons]
    exact ⟨.not hany, .constant true, .compare _ (by decide +kernel) (.integer (by decide)),
      by simp⟩
  have hread := (parse_rendering hwell).2 _ [] [] hwritten hnone hnone
  refine Eq.trans (congrArg parse ?_) hread
  decide +kernel

end RankedRules.Qualifier
