/-
The layouts of a property list.

The text of a value is a row of tokens. In a layout of the value, the tokens stand in the same
order, with spacing in front of each and behind the last: nothing, or a blank and then any blanks
and comments. A comment without a blank in front of it would be a part of the word that it follows.
The last semicolon of an object may be missing, and a list that has items may end with a comma.

* `PropertyList.Filler`, `PropertyList.Spacing` — blanks and comments, and those that a blank leads;
* `PropertyList.Tokens` — the rows of tokens of a value, or of the rest of a list or an object;
* `PropertyList.Spread`, `PropertyList.Layout` — tokens with spacing, and the layouts of a value;
* `PropertyList.Printable.text_layout` — the text of a value is one of its layouts;
* `PropertyList.layouts_read_back` — every layout of a value is read as the value, and every value
  that is read has layouts.
-/
import RankedRules.Proofs.PropertyList.Reading

namespace RankedRules.PropertyList

/-! ## Blanks and comments -/

/-- Blanks and comments one after the other. A comment is ended by its line or by a star and a
slash, which it does not contain. -/
inductive Filler : List Char → Prop
  | nil : Filler []
  | blank {c : Char} {cs : List Char} (hc : Text.isBlank c = true) (hcs : Filler cs) :
      Filler (c :: cs)
  | line (comment : List Char) {cs : List Char} (hcomment : '\n' ∉ comment) (hcs : Filler cs) :
      Filler ('/' :: '/' :: (comment ++ '\n' :: cs))
  | block (comment : List Char) {cs : List Char} (hcomment : ¬['*', '/'] <:+: comment)
      (hcs : Filler cs) :
      Filler ('/' :: '*' :: (comment ++ '*' :: '/' :: cs))

/-- What may be put in between two tokens: blanks and comments that a blank leads. -/
structure Spacing (cs : List Char) : Prop where
  filler : Filler cs
  led : ∀ c ∈ cs.head?, Text.isBlank c = true

theorem skip_line (rest : List Char) : skip ('/' :: '/' :: rest) = skipLine rest := rfl

theorem skip_block (rest : List Char) : skip ('/' :: '*' :: rest) = skipBlock rest := rfl

/-- In front of what is no comment, the first character says whether anything is skipped. -/
theorem skip_cons {c : Char} {rest : List Char}
    (hline : ∀ behind, c = '/' → rest = '/' :: behind → False)
    (hblock : ∀ behind, c = '/' → rest = '*' :: behind → False) :
    skip (c :: rest) = if Text.isBlank c then skip rest else c :: rest := by
  rw [skip.eq_def]
  split
  · rename_i heq
    obtain ⟨rfl, rfl⟩ := List.cons.inj heq
    exact absurd rfl (hline _ rfl)
  · rename_i heq
    obtain ⟨rfl, rfl⟩ := List.cons.inj heq
    exact absurd rfl (hblock _ rfl)
  · rename_i heq
    obtain ⟨rfl, rfl⟩ := List.cons.inj heq
    rfl
  · rename_i heq
    cases heq

theorem skip_of_isBlank {c : Char} (hc : Text.isBlank c = true) (rest : List Char) :
    skip (c :: rest) = skip rest := by
  have hslash : c ≠ '/' := Text.ne_of_isBlank hc (by decide)
  rw [skip_cons (fun _ h _ => hslash h) (fun _ h _ => hslash h), if_pos hc]

/-- A comment is passed over to the end of its line. -/
theorem skipLine_append {comment : List Char} (h : '\n' ∉ comment) (rest : List Char) :
    skipLine (comment ++ '\n' :: rest) = skip rest := by
  induction comment with
  | nil => rw [List.nil_append, skipLine]
  | cons c comment ih =>
    obtain ⟨hc, hcomment⟩ := not_or.1 (mt List.mem_cons.2 h)
    rw [List.cons_append, skipLine, ih hcomment]
    exact fun hline => hc hline.symm

/-- A comment is passed over to the star and the slash behind it. -/
theorem skipBlock_append {comment : List Char} (h : ¬['*', '/'] <:+: comment)
    (rest : List Char) : skipBlock (comment ++ '*' :: '/' :: rest) = skip rest := by
  induction comment with
  | nil => rw [List.nil_append, skipBlock]
  | cons c comment ih =>
    obtain ⟨hc, hcomment⟩ := not_or.1 (mt List.infix_cons_iff.2 h)
    rw [List.cons_append, skipBlock, ih hcomment]
    -- The two signs do not stand together, also not where the comment ends.
    rintro behind rfl hbehind
    cases comment with
    | nil => exact absurd (List.cons.inj hbehind).1 (by decide)
    | cons d comment =>
      obtain ⟨rfl, -⟩ := List.cons.inj hbehind
      exact hc (by simp)

/-- Blanks and comments are passed over. -/
theorem Filler.skip_append {gap : List Char} (h : Filler gap) (rest : List Char) :
    skip (gap ++ rest) = skip rest := by
  induction h with
  | nil => rfl
  | blank hc _ ih => rw [List.cons_append, skip_of_isBlank hc, ih]
  | @line comment cs hcomment _ ih =>
    have hline := skipLine_append hcomment (cs ++ rest)
    simpa [skip_line, ih] using hline
  | @block comment cs hcomment _ ih =>
    have hblock := skipBlock_append hcomment (cs ++ rest)
    simpa [skip_block, ih] using hblock

/-- Spacing is skipped, and the blank that leads it ends a word. -/
theorem Spacing.gap {cs : List Char} (h : Spacing cs) : Gap cs := by
  refine ⟨h.filler.skip_append, fun c hc => ?_⟩
  rw [isWordChar, h.led c hc]
  rfl

theorem Spacing.nil : Spacing [] :=
  ⟨.nil, by rintro c ⟨⟩⟩

theorem Spacing.blank : Spacing [' '] := by
  have hblank : Text.isBlank ' ' = true := by decide
  refine ⟨.blank hblank .nil, ?_⟩
  rintro c ⟨⟩
  exact hblank

theorem Spacing.blanks : Spacing [' ', ' '] := by
  have hblank : Text.isBlank ' ' = true := by decide
  refine ⟨.blank hblank (.blank hblank .nil), ?_⟩
  rintro c ⟨⟩
  exact hblank

/-! ## Tokens -/

/-- The rows of tokens of a phrase. The two ways to end an object and a list with members differ in
the last separator. -/
inductive Tokens : Phrase → List (List Char) → Prop
  | number (n : Number) : Tokens (.value (.number n)) [n.chars]
  | string (s : String) : Tokens (.value (.string s)) [(quote s).toList]
  | array {items : List Value} {tokens : List (List Char)} (hitems : Tokens (.items items) tokens) :
      Tokens (.value (.array items)) (['('] :: tokens)
  | object {members : List (String × Value)} {tokens : List (List Char)}
      (hmembers : Tokens (.members members) tokens) :
      Tokens (.value (.object members)) (['\x7b'] :: tokens)
  | noItem : Tokens (.items []) [[')']]
  | lastItem {v : Value} {tokens : List (List Char)} (hv : Tokens (.value v) tokens) :
      Tokens (.items [v]) (tokens ++ [[')']])
  | nextItem {v : Value} {others : List Value} {tokens tokens' : List (List Char)}
      (hv : Tokens (.value v) tokens) (hothers : Tokens (.items others) tokens') :
      Tokens (.items (v :: others)) (tokens ++ [','] :: tokens')
  | noMember : Tokens (.members []) [['\x7d']]
  | lastMember (name : String) {v : Value} {tokens : List (List Char)}
      (hv : Tokens (.value v) tokens) :
      Tokens (.members [(name, v)]) ((quote name).toList :: ['='] :: (tokens ++ [['\x7d']]))
  | nextMember (name : String) {v : Value} {others : List (String × Value)}
      {tokens tokens' : List (List Char)} (hv : Tokens (.value v) tokens)
      (hothers : Tokens (.members others) tokens') :
      Tokens (.members ((name, v) :: others))
        ((quote name).toList :: ['='] :: (tokens ++ [';'] :: tokens'))

/-- Tokens one after the other, each with spacing in front of it. -/
inductive Spread : List (List Char) → List Char → Prop
  | nil : Spread [] []
  | cons (token : List Char) {gap cs : List Char} {tokens : List (List Char)} (hgap : Spacing gap)
      (htokens : Spread tokens cs) : Spread (token :: tokens) (gap ++ (token ++ cs))

/-- A text with the tokens of a value and with spacing around each of them. -/
inductive Layout (v : Value) : List Char → Prop
  | mk {tokens : List (List Char)} {front behind : List Char} (htokens : Tokens (.value v) tokens)
      (hfront : Spread tokens front) (hbehind : Spacing behind) : Layout v (front ++ behind)

theorem Spread.exists_of_cons {token : List Char} {tokens : List (List Char)} {cs : List Char}
    (h : Spread (token :: tokens) cs) :
    ∃ gap rest, cs = gap ++ (token ++ rest) ∧ Spacing gap ∧ Spread tokens rest := by
  obtain - | ⟨_, hgap, htokens⟩ := h
  exact ⟨_, _, rfl, hgap, htokens⟩

theorem Spread.append {tokens tokens' : List (List Char)} {cs cs' : List Char}
    (h : Spread tokens cs) (h' : Spread tokens' cs') :
    Spread (tokens ++ tokens') (cs ++ cs') := by
  induction h with
  | nil => exact h'
  | cons token hgap _ ih => simpa using Spread.cons token hgap ih

/-- A row of tokens that is put together from two is spread in two parts. -/
theorem Spread.exists_of_append {tokens tokens' : List (List Char)} {cs : List Char}
    (h : Spread (tokens ++ tokens') cs) :
    ∃ front behind, cs = front ++ behind ∧ Spread tokens front ∧ Spread tokens' behind := by
  induction tokens generalizing cs with
  | nil => exact ⟨[], cs, rfl, .nil, h⟩
  | cons token tokens ih =>
    cases h with
    | @cons _ gap cs _ hgap htokens =>
      obtain ⟨front, behind, rfl, hfront, hbehind⟩ := ih htokens
      exact ⟨gap ++ (token ++ front), behind, by simp, .cons token hgap hfront, hbehind⟩

/-! ## What is read -/

/-- Numbers can be read, and objects are in order. -/
def Phrase.Printable : Phrase → Prop
  | .value v => PropertyList.Printable v
  | .items vs => ∀ v ∈ vs, PropertyList.Printable v
  | .members pairs => ∀ pair ∈ pairs, PropertyList.Printable pair.2

/-- A phrase that is spread begins with its spacing; behind that it is one of the texts. -/
def Phrase.IsWritten (cs : List Char) : Phrase → Prop
  | .value v => ∃ gap text, cs = gap ++ text ∧ Gap gap ∧ Written (.value v) text
  | .items vs => Written (.items vs) cs
  | .members pairs => Written (.members pairs) cs

/-- Tokens with spacing in front of them are one of the texts of their phrase. -/
theorem Tokens.isWritten {phrase : Phrase} {tokens : List (List Char)} (h : Tokens phrase tokens)
    (hphrase : phrase.Printable) {cs : List Char} (hcs : Spread tokens cs) :
    phrase.IsWritten cs := by
  induction h generalizing cs with
  | number n =>
    obtain ⟨gap, _, rfl, hgap, ⟨⟩⟩ := hcs.exists_of_cons
    cases hphrase with
    | number hn => exact ⟨gap, _, by rw [List.append_nil], hgap.gap, .number hn⟩
  | string s =>
    obtain ⟨gap, _, rfl, hgap, ⟨⟩⟩ := hcs.exists_of_cons
    exact ⟨gap, _, by rw [List.append_nil], hgap.gap, .string s⟩
  | array _ ih =>
    obtain ⟨gap, _, rfl, hgap, hitems⟩ := hcs.exists_of_cons
    cases hphrase with
    | array hprintable => exact ⟨gap, _, rfl, hgap.gap, .array (ih hprintable hitems)⟩
  | object _ ih =>
    obtain ⟨gap, _, rfl, hgap, hmembers⟩ := hcs.exists_of_cons
    cases hphrase with
    | object hsorted hprintable =>
      -- The members are in order, as the reader puts them.
      have hwritten := Written.object (ih hprintable hmembers)
      rw [Entries.ofList_of_sorted hsorted] at hwritten
      exact ⟨gap, _, rfl, hgap.gap, hwritten⟩
  | noItem =>
    obtain ⟨gap, _, rfl, hgap, ⟨⟩⟩ := hcs.exists_of_cons
    exact .noItem hgap.gap
  | lastItem _ ih =>
    obtain ⟨front, _, rfl, hfront, hclosing⟩ := hcs.exists_of_append
    obtain ⟨gap', _, rfl, hgap', ⟨⟩⟩ := hclosing.exists_of_cons
    obtain ⟨gap, text, rfl, hgap, hv⟩ := ih (hphrase _ List.mem_cons_self) hfront
    have hall := Written.lastItem hgap hv hgap'.gap
    simpa [Phrase.IsWritten] using hall
  | nextItem _ _ ih ihothers =>
    obtain ⟨front, _, rfl, hfront, hcomma⟩ := hcs.exists_of_append
    obtain ⟨gap', _, rfl, hgap', hothers⟩ := hcomma.exists_of_cons
    obtain ⟨gap, text, rfl, hgap, hv⟩ := ih (hphrase _ List.mem_cons_self) hfront
    have hwritten := ihothers (fun w hw => hphrase w (List.mem_cons_of_mem _ hw)) hothers
    have hall := Written.nextItem hgap hv hgap'.gap hwritten
    simpa [Phrase.IsWritten] using hall
  | noMember =>
    obtain ⟨gap, _, rfl, hgap, ⟨⟩⟩ := hcs.exists_of_cons
    exact .noMember hgap.gap
  | lastMember name _ ih =>
    obtain ⟨gap, _, rfl, hgap, hequals⟩ := hcs.exists_of_cons
    obtain ⟨gap₁, _, rfl, hgap₁, hvalue⟩ := hequals.exists_of_cons
    obtain ⟨front, _, rfl, hfront, hclosing⟩ := hvalue.exists_of_append
    obtain ⟨gap₃, _, rfl, hgap₃, ⟨⟩⟩ := hclosing.exists_of_cons
    obtain ⟨gap₂, text, rfl, hgap₂, hv⟩ := ih (hphrase _ List.mem_cons_self) hfront
    have hall := Written.lastMember name hgap.gap hgap₁.gap hgap₂ hv hgap₃.gap
    simpa [Phrase.IsWritten] using hall
  | nextMember name _ _ ih ihothers =>
    obtain ⟨gap, _, rfl, hgap, hequals⟩ := hcs.exists_of_cons
    obtain ⟨gap₁, _, rfl, hgap₁, hvalue⟩ := hequals.exists_of_cons
    obtain ⟨front, _, rfl, hfront, hsemicolon⟩ := hvalue.exists_of_append
    obtain ⟨gap₃, _, rfl, hgap₃, hothers⟩ := hsemicolon.exists_of_cons
    obtain ⟨gap₂, text, rfl, hgap₂, hv⟩ := ih (hphrase _ List.mem_cons_self) hfront
    have hwritten := ihothers (fun w hw => hphrase w (List.mem_cons_of_mem _ hw)) hothers
    have hall := Written.nextMember name hgap.gap hgap₁.gap hgap₂ hv hgap₃.gap hwritten
    simpa [Phrase.IsWritten] using hall

/-- Every layout of a value is read as the value. -/
theorem Layout.parse_eq {v : Value} (hv : Printable v) {cs : List Char} (h : Layout v cs) :
    parse cs = .ok v := by
  obtain ⟨htokens, hfront, hbehind⟩ := h
  have hvalue : Phrase.IsWritten _ (.value v) := htokens.isWritten hv hfront
  obtain ⟨gap, text, rfl, hgap, hwritten⟩ := hvalue
  rw [List.append_assoc]
  exact parse_written hwritten hgap.skipped hbehind.gap

/-! ## The canonical text -/

/-- The text of a value is made of tokens of the value, whatever spacing is put in front of it. -/
def IsSpread (v : Value) : Prop :=
  ∃ tokens, Tokens (.value v) tokens ∧ ∀ gap, Spacing gap → Spread tokens (gap ++ (text v).toList)

theorem isSpread_array {items : List Value} (h : ∀ v ∈ items, IsSpread v) :
    ∃ tokens, Tokens (.items items) tokens ∧
      Spread tokens (' ' :: ((Text.join ", " (itemTexts items)).toList ++ [' ', ')'])) := by
  induction items with
  | nil => exact ⟨_, .noItem, .cons _ .blanks .nil⟩
  | cons v others ih =>
    obtain ⟨tokens, hv, hspread⟩ := h v List.mem_cons_self
    have hfirst := hspread _ .blank
    cases others with
    | nil => exact ⟨_, .lastItem hv, hfirst.append (.cons _ .blank .nil)⟩
    | cons next others =>
      obtain ⟨tokens', hothers, hrest⟩ := ih fun w hw => h w (List.mem_cons_of_mem v hw)
      have hall := hfirst.append (.cons [','] .nil hrest)
      refine ⟨_, .nextItem hv hothers, ?_⟩
      simpa [itemTexts, Text.join] using hall

theorem isSpread_object {members : List (String × Value)}
    (h : ∀ member ∈ members, IsSpread member.2) :
    ∃ tokens, Tokens (.members members) tokens ∧
      Spread tokens (' ' :: ((memberTexts members).toList ++ ['\x7d'])) := by
  induction members with
  | nil => exact ⟨_, .noMember, .cons _ .blank .nil⟩
  | cons member others ih =>
    obtain ⟨name, v⟩ := member
    obtain ⟨tokens, hv, hspread⟩ := h (name, v) List.mem_cons_self
    obtain ⟨tokens', hothers, hrest⟩ := ih fun w hw => h w (List.mem_cons_of_mem _ hw)
    have hvalue := (hspread _ .blank).append (.cons [';'] .nil hrest)
    have hall := Spread.cons (quote name).toList .blank (.cons ['='] .blank hvalue)
    refine ⟨_, .nextMember name hv hothers, ?_⟩
    simpa [memberTexts] using hall

theorem Printable.isSpread {v : Value} (h : Printable v) : IsSpread v := by
  induction h with
  | @number n _ =>
    refine ⟨_, .number n, fun gap hgap => ?_⟩
    simpa [text, Number.text] using Spread.cons n.chars hgap .nil
  | string s =>
    refine ⟨_, .string s, fun gap hgap => ?_⟩
    simpa [text] using Spread.cons (quote s).toList hgap .nil
  | array _ ih =>
    obtain ⟨tokens, hitems, hspread⟩ := isSpread_array ih
    refine ⟨_, .array hitems, fun gap hgap => ?_⟩
    simpa [text] using Spread.cons ['('] hgap hspread
  | object _ _ ih =>
    obtain ⟨tokens, hmembers, hspread⟩ := isSpread_object ih
    refine ⟨_, .object hmembers, fun gap hgap => ?_⟩
    simpa [text] using Spread.cons ['\x7b'] hgap hspread

/-- The text of a value is one of its layouts. -/
theorem Printable.text_layout {v : Value} (h : Printable v) : Layout v (text v).toList := by
  obtain ⟨tokens, htokens, hspread⟩ := h.isSpread
  simpa using Layout.mk htokens (hspread [] .nil) .nil

/-- The text of a value and all its other layouts are read as the value, and the values that are
read are the values that have a text. -/
theorem layouts_read_back :
    (∀ v, Printable v → parse (text v).toList = .ok v ∧ Layout v (text v).toList ∧
      ∀ cs, Layout v cs → parse cs = .ok v) ∧
    ∀ cs v, parse cs = .ok v → Printable v := by
  refine ⟨fun v hv => ⟨parse_text hv, hv.text_layout, fun cs hcs => hcs.parse_eq hv⟩, ?_⟩
  intro cs v hparse
  exact printable_of_parse hparse

theorem layouts_read_back_commented :
    parse " // counts\n\x7b \"it's\" = ( 1, /* two */ -2, );\"note\"=\"a; b\" /* last */ \x7d".toList =
      .ok (.object [("it's", .array [.number (.integer 1), .number (.integer (-2))]),
        ("note", .string "a; b")]) := by
  have hprintable : Printable (.object [("it's", .array [.number (.integer 1),
      .number (.integer (-2))]), ("note", .string "a; b")]) := by
    have hsorted := Entries.sorted_ofList [("it's", Value.array [.number (.integer 1),
      .number (.integer (-2))]), ("note", .string "a; b")]
    refine .object hsorted (List.forall_mem_cons.2 ⟨.array ?_, ?_⟩)
    · exact List.forall_mem_cons.2
        ⟨.number (by rfl), List.forall_mem_singleton.2 (.number (by rfl))⟩
    · exact List.forall_mem_singleton.2 (.string _)
  have hitems : Tokens (.items [.number (.integer 1), .number (.integer (-2))])
      [['1'], [','], ['-', '2'], [','], [')']] :=
    .nextItem (.number _) (.nextItem (.number _) .noItem)
  have htokens := Tokens.object
    (.nextMember "it's" (.array hitems) (.lastMember "note" (.string "a; b")))
  have hblank : Text.isBlank ' ' = true := by decide
  have hline : Spacing " // counts\n".toList :=
    ⟨.blank hblank (.line " counts".toList (by decide) .nil), by rintro c ⟨⟩; decide⟩
  have htwo : Spacing " /* two */ ".toList :=
    ⟨.blank hblank (.block [' ', 't', 'w', 'o', ' '] (by decide) (.blank hblank .nil)),
      by rintro c ⟨⟩; decide⟩
  have hlast : Spacing " /* last */ ".toList :=
    ⟨.blank hblank (.block [' ', 'l', 'a', 's', 't', ' '] (by decide) (.blank hblank .nil)),
      by rintro c ⟨⟩; decide⟩
  have hspread : Spread [['\x7b'], (quote "it's").toList, ['='], ['('], ['1'], [','], ['-', '2'],
      [','], [')'], [';'], (quote "note").toList, ['='], (quote "a; b").toList, ['\x7d']] _ :=
    .cons _ hline (.cons _ .blank (.cons _ .blank (.cons _ .blank (.cons _ .blank (.cons _ .nil
      (.cons _ htwo (.cons _ .nil (.cons _ .blank (.cons _ .nil (.cons _ .nil (.cons _ .nil
        (.cons _ .nil (.cons _ hlast .nil)))))))))))))
  exact (layouts_read_back.1 _ hprintable).2.2 _ (.mk htokens hspread .nil)

end RankedRules.PropertyList
