/-
Property lists: reading with an index.

The cursors here hold the index of the next character and look at most one character further. The
loops over blanks, over the characters of a comment, a string or a word, over the items of a list
and over the members of an object, and the nesting of lists and objects have as many steps as the
text has characters, and one more. A closing bracket behind an item is seen twice: it ends the item,
and then the list.

* `PropertyList.Cursor.parse` — the value that a whole text is, read with an index;
* `Index` — an index and the rest of the text that begins there;
* `PropertyList.parse_agrees` — an index leads to the same result.
-/
import RankedRules.Proofs.PropertyList.Bounds
import RankedRules.Proofs.Text.Cursor
import RankedRules.Rule.RightSide

namespace RankedRules.PropertyList

open Text

namespace Cursor

variable (text : List Char)

/-! ## Reading at an index -/

/-- The position in bytes of the character at an index, or the end of the text. -/
def offset (i : Nat) : Nat :=
  byteSize (text.take i)

/-- An error at an index. -/
def fail {α : Type} (cause : Cause) (i : Nat) : Except Halt α :=
  .error (.error (.propertyList (offset text i) cause))

/-- The characters between two indices. -/
def range? (i j : Nat) : Option (List Char) :=
  if i ≤ j ∧ j ≤ text.length then some ((text.drop i).take (j - i)) else none

/-- The index of the end of the line. -/
def lineEnd : Nat → Nat → Except Halt Nat
  | 0, _ => .error .unfinished
  | steps + 1, i =>
    match text[i]? with
    | none => .ok i
    | some c => if c = '\n' then .ok i else lineEnd steps (i + 1)

/-- The index behind the next star and slash, or the end of the text. -/
def blockEnd : Nat → Nat → Except Halt Nat
  | 0, _ => .error .unfinished
  | steps + 1, i =>
    if i < text.length then
      if text[i]? = some '*' ∧ text[i + 1]? = some '/' then .ok (i + 2) else blockEnd steps (i + 1)
    else .ok i

/-- The index behind blanks and comments. -/
def skipFrom : Nat → Nat → Except Halt Nat
  | 0, _ => .error .unfinished
  | steps + 1, i =>
    match text[i]? with
    | none => .ok i
    | some c =>
      if isBlank c then skipFrom steps (i + 1)
      else if c = '/' ∧ text[i + 1]? = some '/' then do
        skipFrom steps (← lineEnd text (text.length + 1) i)
      else if c = '/' ∧ text[i + 1]? = some '*' then do
        skipFrom steps (← blockEnd text (text.length + 1) (i + 2))
      else .ok i

def skip (i : Nat) : Except Halt Nat :=
  skipFrom text (text.length + 1) i

/-- A certain character, behind blanks and comments. -/
def expect (expected : Char) (i : Nat) : Except Halt Nat := do
  let i ← skip text i
  if text[i]? = some expected then .ok (i + 1) else fail text (.expected expected) i

/-- The characters up to the closing quote. -/
def quotedChars (quote : Char) : Nat → Cursor (List Char)
  | 0, _ => .error .unfinished
  | steps + 1, i =>
    match text[i]? with
    | none => fail text .unterminatedString i
    | some c =>
      if c = quote then .ok ([], i + 1)
      else if c = '\\' then
        match text[i + 1]? with
        | none => fail text .unterminatedString (i + 1)
        | some next => do
          let (chars, i) ← quotedChars quote steps (i + 2)
          .ok (unescape next :: chars, i)
      else do
        let (chars, i) ← quotedChars quote steps (i + 1)
        .ok (c :: chars, i)

/-- A string up to its closing quote. -/
def quoted (quote : Char) : Cursor String := fun i => do
  let (chars, i) ← quotedChars text quote (text.length + 1) i
  .ok (String.ofList chars, i)

/-- The index behind the characters of a word. -/
def wordEnd : Nat → Nat → Except Halt Nat
  | 0, _ => .error .unfinished
  | steps + 1, i =>
    match text[i]? with
    | none => .ok i
    | some c => if isWordChar c then wordEnd steps (i + 1) else .ok i

/-- A word without quotes. -/
def word : Cursor (List Char) := fun start => do
  let i ← wordEnd text (text.length + 1) start
  if i = start then fail text .expectedValue i
  else do
    let chars ← slice (range? text start i)
    .ok (chars, i)

/-- The items of a list and its closing parenthesis. -/
def items (item : Cursor Value) : Nat → Cursor (List Value)
  | 0, _ => .error .unfinished
  | steps + 1, i => do
    let i ← skip text i
    if text[i]? = some ')' then .ok ([], i + 1)
    else do
      let (v, i) ← item i
      let i ← skip text i
      if text[i]? = some ',' then do
        let (vs, i) ← items item steps (i + 1)
        .ok (v :: vs, i)
      else if text[i]? = some ')' then do
        let (vs, i) ← items item steps i
        .ok (v :: vs, i)
      else fail text .arraySeparator i

/-- The name of a member. -/
def name : Cursor String := fun i =>
  match text[i]? with
  | none => fail text .unterminatedDictionary i
  | some c =>
    if c = '"' ∨ c = '\'' then quoted text c (i + 1)
    else do
      let (chars, i) ← word text i
      .ok (String.ofList chars, i)

/-- The members of an object and its closing brace. -/
def members (item : Cursor Value) : Nat → Cursor (List (String × Value))
  | 0, _ => .error .unfinished
  | steps + 1, i => do
    let i ← skip text i
    if text[i]? = some '\x7d' then .ok ([], i + 1)
    else do
      let (s, i) ← name text i
      let i ← expect text '=' i
      let (v, i) ← item i
      let i ← skip text i
      if text[i]? = some ';' then do
        let (pairs, i) ← members item steps (i + 1)
        .ok ((s, v) :: pairs, i)
      else if text[i]? = some '\x7d' then do
        let (pairs, i) ← members item steps i
        .ok ((s, v) :: pairs, i)
      else fail text .dictionarySeparator i

/-- A value whose lists and objects are nested at most as deep as `depth`. -/
def value : Nat → Cursor Value
  | 0, _ => .error .unfinished
  | depth + 1, i => do
    let i ← skip text i
    match text[i]? with
    | none => fail text .endOfInput i
    | some c =>
      if c = '\x7b' then do
        let i ← expect text '\x7b' i
        let (pairs, i) ← members text (value depth) (text.length + 1) i
        .ok (.object (Entries.ofList pairs), i)
      else if c = '(' then do
        let i ← expect text '(' i
        let (vs, i) ← items text (value depth) (text.length + 1) i
        .ok (.array vs, i)
      else if c = '"' ∨ c = '\'' then do
        let (s, i) ← quoted text c (i + 1)
        .ok (.string s, i)
      else do
        let (chars, i) ← word text i
        .ok (wordValue chars, i)

/-- The value that the whole text is. -/
def parse : Except Halt Value := do
  let (v, i) ← value text (text.length + 1) 0
  let i ← skip text i
  if i < text.length then fail text .trailing i else .ok v

end Cursor

/-! ## The same place -/

variable {text : List Char}

/-- The rest of the text that begins at an index. -/
def Index (text : List Char) (i : Nat) (cs : List Char) : Prop :=
  ∃ front, text = front ++ cs ∧ i = front.length

namespace Index

variable {i : Nat} {cs rest : List Char} {c : Char}

theorem start (text : List Char) : Index text 0 text :=
  ⟨[], rfl, rfl⟩

theorem advance {front : List Char} (h : Index text i (front ++ cs)) :
    Index text (i + front.length) cs := by
  obtain ⟨before, rfl, rfl⟩ := h
  exact ⟨before ++ front, by rw [List.append_assoc], by rw [List.length_append]⟩

theorem next (h : Index text i (c :: cs)) : Index text (i + 1) cs :=
  (show Index text i ([c] ++ cs) from h).advance

theorem getElem?_eq (h : Index text i cs) (k : Nat) : text[i + k]? = cs[k]? := by
  obtain ⟨front, rfl, rfl⟩ := h
  rw [List.getElem?_append_right (Nat.le_add_right _ _), Nat.add_sub_cancel_left]

theorem head?_eq (h : Index text i cs) : text[i]? = cs.head? := by
  rw [← Nat.add_zero i, h.getElem?_eq 0, List.head?_eq_getElem?]

theorem length_eq (h : Index text i cs) : text.length = i + cs.length := by
  obtain ⟨front, rfl, rfl⟩ := h
  rw [List.length_append]

theorem length_le (h : Index text i cs) : cs.length ≤ text.length := by
  rw [h.length_eq]
  exact Nat.le_add_left _ _

/-- The position that is reported for an index is that of the rest. -/
theorem at_offset (h : Index text i cs) : At text (Cursor.offset text i) cs := by
  obtain ⟨front, rfl, rfl⟩ := h
  exact ⟨front, rfl, by rw [Cursor.offset, List.take_left]⟩

end Index

/-! ## Blanks and comments -/

theorem exists_of_second {c d : Char} {cs : List Char} (h : (c :: cs)[1]? = some d) :
    ∃ rest, cs = d :: rest := by
  rw [List.getElem?_cons_succ, ← List.head?_eq_getElem?] at h
  exact List.head?_eq_some_iff.1 h

theorem lineEnd_next {steps i : Nat} {c : Char} {cs : List Char} (h : Index text i (c :: cs))
    (hc : c ≠ '\n') : Cursor.lineEnd text (steps + 1) i = Cursor.lineEnd text steps (i + 1) := by
  rw [Cursor.lineEnd, h.head?_eq]
  exact if_neg hc

/-- The end of a line, from which on the same is skipped. -/
theorem lineEnd_eq {steps i : Nat} {cs : List Char} (h : Index text i cs)
    (hsteps : cs.length < steps) :
    ∃ j rest, Cursor.lineEnd text steps i = .ok j ∧ Index text j rest ∧
      skip rest = skipLine cs ∧ rest.length ≤ cs.length := by
  induction steps generalizing i cs with
  | zero => omega
  | succ steps ih =>
    cases cs with
    | nil =>
      rw [Cursor.lineEnd, h.head?_eq]
      exact ⟨i, [], rfl, h, rfl, Nat.le_refl _⟩
    | cons c cs =>
      rw [List.length_cons] at hsteps
      by_cases hc : c = '\n'
      · subst hc
        rw [Cursor.lineEnd, h.head?_eq]
        exact ⟨i, _, rfl, h, skip_of_isBlank (by decide) cs, Nat.le_refl _⟩
      · obtain ⟨j, rest, hend, hindex, hskip, hlength⟩ := ih h.next (by omega)
        refine ⟨j, rest, (lineEnd_next h hc).trans hend, hindex, ?_, Nat.le_succ_of_le hlength⟩
        rw [skipLine, hskip]
        exact hc

/-- The end of a comment, from which on the same is skipped. -/
theorem blockEnd_eq {steps i : Nat} {cs : List Char} (h : Index text i cs)
    (hsteps : cs.length < steps) :
    ∃ j rest, Cursor.blockEnd text steps i = .ok j ∧ Index text j rest ∧
      skip rest = skipBlock cs ∧ rest.length ≤ cs.length := by
  induction steps generalizing i cs with
  | zero => omega
  | succ steps ih =>
    have hlength := h.length_eq
    cases cs with
    | nil =>
      rw [Cursor.blockEnd, if_neg (by rw [List.length_nil] at hlength; omega)]
      exact ⟨i, [], rfl, h, rfl, Nat.le_refl _⟩
    | cons c cs =>
      rw [List.length_cons] at hsteps hlength
      rw [Cursor.blockEnd, if_pos (by omega), h.head?_eq, h.getElem?_eq 1]
      by_cases hend : (c :: cs).head? = some '*' ∧ (c :: cs)[1]? = some '/'
      · rw [if_pos hend]
        obtain ⟨hstar, hslash⟩ := hend
        cases hstar
        obtain ⟨rest, rfl⟩ := exists_of_second hslash
        refine ⟨i + 2, rest, rfl, h.next.next, ?_, ?_⟩
        · rw [skipBlock]
        · rw [List.length_cons, List.length_cons]
          omega
      · rw [if_neg hend]
        obtain ⟨j, rest, hfound, hindex, hskip, hle⟩ := ih h.next (by omega)
        refine ⟨j, rest, hfound, hindex, ?_, Nat.le_succ_of_le hle⟩
        rw [skipBlock, hskip]
        rintro behind rfl rfl
        exact hend ⟨rfl, rfl⟩

theorem skipFrom_eq {steps i : Nat} {cs : List Char} (h : Index text i cs)
    (hsteps : cs.length < steps) :
    ∃ j, Cursor.skipFrom text steps i = .ok j ∧ Index text j (skip cs) := by
  induction steps generalizing i cs with
  | zero => omega
  | succ steps ih =>
    rw [Cursor.skipFrom, h.head?_eq, h.getElem?_eq 1]
    have hbound := h.length_le
    cases cs with
    | nil => exact ⟨i, rfl, h⟩
    | cons c cs =>
      rw [List.length_cons] at hsteps hbound
      dsimp only [List.head?_cons]
      split
      · rename_i hc
        rw [skip_of_isBlank hc]
        exact ih h.next (by omega)
      · rename_i hblank
        split
        · rename_i hline
          obtain ⟨rfl, hslash⟩ := hline
          obtain ⟨rest, rfl⟩ := exists_of_second hslash
          -- The line does not end at its first slash, so what is left from its end on is shorter.
          obtain ⟨j, ds, hend, hindex, hskip, hlength⟩ := lineEnd_eq h.next hbound
          rw [lineEnd_next h (by decide), hend, ok_bind, skip_line]
          have hfound := ih hindex (by omega)
          rw [hskip] at hfound
          exact hfound
        · rename_i hline
          split
          · rename_i hblock
            obtain ⟨rfl, hstar⟩ := hblock
            obtain ⟨rest, rfl⟩ := exists_of_second hstar
            rw [List.length_cons] at hsteps hbound
            have hrest : rest.length < text.length + 1 := by omega
            obtain ⟨j, ds, hend, hindex, hskip, hlength⟩ := blockEnd_eq h.next.next hrest
            rw [hend, ok_bind, skip_block, ← hskip]
            exact ih hindex (by omega)
          · rename_i hblock
            rw [skip_cons, if_neg hblank]
            · exact ⟨i, rfl, h⟩
            · rintro behind rfl rfl
              exact hline ⟨rfl, rfl⟩
            · rintro behind rfl rfl
              exact hblock ⟨rfl, rfl⟩

theorem skip_eq {i : Nat} {cs : List Char} (h : Index text i cs) :
    ∃ j, Cursor.skip text i = .ok j ∧ Index text j (skip cs) :=
  skipFrom_eq h (Nat.lt_succ_of_le h.length_le)

/-! ## Strings, words and signs -/

/-- A cursor agrees with a reader on all rests of a text that are shorter than a bound. -/
def Follows {α : Type} (text : List Char) (bound : Nat) (cursor : Cursor α)
    (read : Reader Cause α) : Prop :=
  ∀ i cs, cs.length < bound → Index text i cs →
    Agrees (Index text) .propertyList text (read cs) (cursor i)

theorem Index.fails {α : Type} {i : Nat} {cs : List Char} (h : Index text i cs) (cause : Cause) :
    Agrees (Index text) .propertyList text
      (.error ⟨cause, cs⟩ : Except (Fault Cause) (α × List Char)) (Cursor.fail text cause i) :=
  .error h.at_offset

theorem quotedChars_cons {quote c : Char} (hc : c ≠ '\\') (cs : List Char) :
    quotedChars quote (c :: cs) =
      if c = quote then .ok ([], cs)
      else (do
        let (chars, rest) ← quotedChars quote cs
        .ok (c :: chars, rest)) := by
  rw [quotedChars]
  · exact fun h => absurd h hc
  · exact fun _ _ h => absurd h hc

theorem quotedChars_follows {quote : Char} (hquote : quote ≠ '\\') (steps : Nat) :
    Follows text steps (Cursor.quotedChars text quote steps) (quotedChars quote) := by
  intro i cs hsteps h
  induction steps generalizing i cs with
  | zero => exact absurd hsteps (Nat.not_lt_zero _)
  | succ steps ih =>
    rw [Cursor.quotedChars, h.head?_eq, h.getElem?_eq 1]
    cases cs with
    | nil => exact h.fails _
    | cons c cs =>
      rw [List.length_cons] at hsteps
      dsimp only [List.head?_cons]
      by_cases hc : c = '\\'
      · subst hc
        rw [if_neg (Ne.symm hquote), if_pos rfl]
        cases cs with
        | nil => exact h.next.fails _
        | cons d cs =>
          rw [List.length_cons] at hsteps
          rw [quotedChars]
          exact (ih _ _ (by omega) h.next.next).bind fun chars rest j _ hindex => .ok hindex
      · rw [quotedChars_cons hc]
        by_cases hquoted : c = quote
        · rw [if_pos hquoted, if_pos hquoted]
          exact .ok h.next
        · rw [if_neg hquoted, if_neg hquoted, if_neg hc]
          exact (ih _ _ (by omega) h.next).bind fun chars rest j _ hindex => .ok hindex

theorem quoted_follows {quote : Char} (hquote : Scan.isQuote quote = true) :
    Follows text (text.length + 1) (Cursor.quoted text quote) (quoted quote) := by
  intro i cs hbound h
  have hslash : quote ≠ '\\' := by
    rintro rfl
    cases hquote
  exact (quotedChars_follows hslash _ i cs hbound h).bind fun chars rest j _ hindex => .ok hindex

/-- A word ends where its characters end. -/
theorem wordEnd_eq {steps i : Nat} {cs : List Char} (h : Index text i cs)
    (hsteps : cs.length < steps) :
    Cursor.wordEnd text steps i = .ok (i + (cs.takeWhile isWordChar).length) := by
  induction steps generalizing i cs with
  | zero => omega
  | succ steps ih =>
    rw [Cursor.wordEnd, h.head?_eq]
    cases cs with
    | nil => rfl
    | cons c cs =>
      rw [List.length_cons] at hsteps
      dsimp only [List.head?_cons]
      by_cases hc : isWordChar c = true
      · rw [if_pos hc, ih h.next (by omega), List.takeWhile_cons_of_pos hc, List.length_cons,
          Nat.add_assoc, Nat.add_comm 1]
      · rw [if_neg hc, List.takeWhile_cons_of_neg hc]
        rfl

theorem range?_eq {i : Nat} {front rest : List Char} (h : Index text i (front ++ rest)) :
    Cursor.range? text i (i + front.length) = some front := by
  have hlength := h.advance.length_eq
  obtain ⟨before, rfl, rfl⟩ := h
  rw [Cursor.range?, if_pos (by omega), List.drop_left, Nat.add_sub_cancel_left, List.take_left]

theorem word_follows : Follows text (text.length + 1) (Cursor.word text) word := by
  intro i cs hbound h
  rw [Cursor.word, wordEnd_eq h hbound, ok_bind, word]
  have hsplit : cs.takeWhile isWordChar ++ cs.dropWhile isWordChar = cs :=
    List.takeWhile_append_dropWhile
  generalize cs.takeWhile isWordChar = chars, cs.dropWhile isWordChar = rest at hsplit
  subst hsplit
  cases chars with
  | nil =>
    rw [List.length_nil, Nat.add_zero, if_pos rfl]
    exact h.fails _
  | cons c chars =>
    have hne : i + (c :: chars).length ≠ i := by
      rw [List.length_cons]
      omega
    rw [if_neg hne, range?_eq h]
    exact .ok h.advance

theorem expect_agrees (c : Char) {i : Nat} {cs : List Char} (h : Index text i cs) :
    match expect c cs with
    | .ok rest => ∃ j, Cursor.expect text c i = .ok j ∧ Index text j rest
    | .error fault =>
      ∃ pos, Cursor.expect text c i = .error (.error (.propertyList pos fault.cause)) ∧
        At text pos fault.rest := by
  obtain ⟨j, hskip, hindex⟩ := skip_eq h
  rw [Cursor.expect, hskip, ok_bind, hindex.head?_eq, expect]
  cases hcs : skip cs with
  | nil =>
    rw [hcs] at hindex
    exact ⟨_, rfl, hindex.at_offset⟩
  | cons d rest =>
    rw [hcs] at hindex
    dsimp only
    by_cases hd : d = c
    · have hhead : (d :: rest).head? = some c := congrArg some hd
      rw [if_pos hd, if_pos hhead]
      exact ⟨_, rfl, hindex.next⟩
    · have hhead : (d :: rest).head? ≠ some c := fun heq => hd (Option.some.inj heq)
      rw [if_neg hd, if_neg hhead]
      exact ⟨_, rfl, hindex.at_offset⟩

theorem name_follows : Follows text (text.length + 1) (Cursor.name text) name := by
  intro i cs hbound h
  rw [Cursor.name, h.head?_eq]
  cases cs with
  | nil => exact h.fails _
  | cons c cs =>
    rw [List.length_cons] at hbound
    dsimp only [List.head?_cons]
    rw [name]
    by_cases hc : c = '"' ∨ c = '\''
    · rw [if_pos hc, if_pos hc]
      exact quoted_follows (by simpa [Scan.isQuote] using hc) _ _ (by omega) h.next
    · rw [if_neg hc, if_neg hc]
      exact (word_follows _ _ (by rw [List.length_cons]; omega) h).bind
        fun chars rest j _ hindex => .ok hindex

/-! ## Lists, objects and values -/

/-- Behind an item stands a separator, a closing bracket, or something that does not belong
there. -/
theorem separator_agrees {α : Type} {separator closing : Char}
    {cause : Cause} {i : Nat} {cs : List Char} (hindex : Index text i cs)
    {read : Except (Fault Cause) (α × List Char)} {more again : Except Halt (α × Nat)}
    (hmore : ∀ rest, cs = separator :: rest → Agrees (Index text) .propertyList text read more)
    (hagain : ∀ rest, cs = closing :: rest → Agrees (Index text) .propertyList text read again)
    (hother : cs.head? ≠ some separator → cs.head? ≠ some closing → read = .error ⟨cause, cs⟩) :
    Agrees (Index text) .propertyList text read
      (if cs.head? = some separator then more
        else if cs.head? = some closing then again
        else Cursor.fail text cause i) := by
  by_cases hseparator : cs.head? = some separator
  · obtain ⟨rest, hrest⟩ := List.head?_eq_some_iff.1 hseparator
    rw [if_pos hseparator]
    exact hmore rest hrest
  · rw [if_neg hseparator]
    by_cases hclosing : cs.head? = some closing
    · obtain ⟨rest, hrest⟩ := List.head?_eq_some_iff.1 hclosing
      rw [if_pos hclosing]
      exact hagain rest hrest
    · rw [if_neg hclosing, hother hseparator hclosing]
      exact hindex.fails cause

theorem items_follows {item : Reader Cause Value} {item' : Cursor Value} {bound : Nat}
    (h : Follows text bound item' item) (hstrict : IsStrict item) {n steps i : Nat}
    {cs : List Char} (hbound : cs.length < bound) (hn : cs.length < n) (hsteps : cs.length < steps)
    (hindex : Index text i cs) :
    Agrees (Index text) .propertyList text (items item n cs)
      (Cursor.items text item' steps i) := by
  induction steps generalizing n i cs with
  | zero => omega
  | succ steps ih =>
    obtain ⟨n, rfl⟩ : ∃ k, n = k + 1 := ⟨n - 1, by omega⟩
    obtain ⟨j, hskip, hat⟩ := skip_eq hindex
    have hlength := length_skip_le cs
    rw [Cursor.items, hskip, ok_bind, hat.head?_eq]
    by_cases hclosed : (skip cs).head? = some ')'
    · obtain ⟨rest, hrest⟩ := List.head?_eq_some_iff.1 hclosed
      rw [if_pos hclosed, items_closed hrest]
      rw [hrest] at hat
      exact .ok hat.next
    · have hopen : ∀ rest, skip cs ≠ ')' :: rest := fun rest hrest =>
        hclosed (by rw [hrest]; rfl)
      rw [if_neg hclosed, items_open hopen]
      refine (h j (skip cs) (by omega) hat).bind fun v rest k hread hindex => ?_
      have hlt := hstrict _ _ _ hread
      have hle := length_skip_le rest
      obtain ⟨k, hskip, hat⟩ := skip_eq hindex
      dsimp only
      rw [hskip, ok_bind, hat.head?_eq]
      generalize skip rest = behind at hat hle
      refine separator_agrees hat ?_ ?_ fun hcomma hclosing => ?_
      · rintro ds rfl
        rw [List.length_cons] at hle
        refine (ih (by omega) (by omega) (by omega) hat.next).bind fun vs rest j _ hindex => ?_
        exact .ok hindex
      · -- The closing bracket is seen once more, and then it ends the list.
        rintro ds rfl
        have hagain : Agrees (Index text) .propertyList text
            (items item ((')' :: ds).length + 1) (')' :: ds)) (Cursor.items text item' steps k) :=
          ih (by omega) (Nat.lt_succ_self _) (by omega) hat
        rw [items_closed (skip_token (by decide) (by decide) ds)] at hagain
        obtain ⟨l, hfound, hindex⟩ := hagain
        rw [hfound]
        exact .ok hindex
      · split
        · exact absurd rfl hcomma
        · exact absurd rfl hclosing
        · rfl

theorem members_follows {item : Reader Cause Value} {item' : Cursor Value} {bound : Nat}
    (hbounds : bound ≤ text.length + 1) (h : Follows text bound item' item)
    (hstrict : IsStrict item) {n steps i : Nat} {cs : List Char} (hbound : cs.length < bound)
    (hn : cs.length < n) (hsteps : cs.length < steps) (hindex : Index text i cs) :
    Agrees (Index text) .propertyList text (members item n cs)
      (Cursor.members text item' steps i) := by
  induction steps generalizing n i cs with
  | zero => omega
  | succ steps ih =>
    obtain ⟨n, rfl⟩ : ∃ k, n = k + 1 := ⟨n - 1, by omega⟩
    obtain ⟨j, hskip, hat⟩ := skip_eq hindex
    have hlength := length_skip_le cs
    rw [Cursor.members, hskip, ok_bind, hat.head?_eq]
    by_cases hclosed : (skip cs).head? = some '\x7d'
    · obtain ⟨rest, hrest⟩ := List.head?_eq_some_iff.1 hclosed
      rw [if_pos hclosed, members_closed hrest]
      rw [hrest] at hat
      exact .ok hat.next
    · have hopen : ∀ rest, skip cs ≠ '\x7d' :: rest := fun rest hrest =>
        hclosed (by rw [hrest]; rfl)
      rw [if_neg hclosed, members_open hopen]
      refine (name_follows j (skip cs) (by omega) hat).bind fun s rest k hread hindex => ?_
      have hname := (name_takes hread 0).length_le
      have hexpect := expect_agrees '=' hindex
      dsimp only
      -- The equals sign has no value, so its two outcomes are followed by hand.
      cases hequals : expect '=' rest with
      | error fault =>
        rw [hequals] at hexpect
        obtain ⟨pos, hfound, hat⟩ := hexpect
        rw [hfound]
        exact ⟨pos, rfl, hat⟩
      | ok rest' =>
        rw [hequals] at hexpect
        obtain ⟨l, hfound, hindex⟩ := hexpect
        have hrest' := (expect_takes (by decide) hequals 0).length_le
        rw [hfound, ok_bind, ok_bind]
        refine (h l rest' (by omega) hindex).bind fun v rest k hread hindex => ?_
        have hlt := hstrict _ _ _ hread
        have hle := length_skip_le rest
        obtain ⟨k, hskip, hat⟩ := skip_eq hindex
        dsimp only
        rw [hskip, ok_bind, hat.head?_eq]
        generalize skip rest = behind at hat hle
        refine separator_agrees hat ?_ ?_ fun hsemicolon hclosing => ?_
        · rintro ds rfl
          rw [List.length_cons] at hle
          refine (ih (by omega) (by omega) (by omega) hat.next).bind fun ps rest j _ hindex => ?_
          exact .ok hindex
        · rintro ds rfl
          have hagain : Agrees (Index text) .propertyList text
              (members item (('\x7d' :: ds).length + 1) ('\x7d' :: ds))
              (Cursor.members text item' steps k) :=
            ih (by omega) (Nat.lt_succ_self _) (by omega) hat
          rw [members_closed (skip_token (by decide) (by decide) ds)] at hagain
          obtain ⟨l, hfound, hindex⟩ := hagain
          rw [hfound]
          exact .ok hindex
        · split
          · exact absurd rfl hsemicolon
          · exact absurd rfl hclosing
          · rfl

/-- An opening bracket is still there when it is expected. -/
theorem expect_opening {c : Char} (hblank : isBlank c = false) (hslash : c ≠ '/') {i : Nat}
    {rest : List Char} (h : Index text i (c :: rest)) :
    ∃ j, Cursor.expect text c i = .ok j ∧ Index text j rest := by
  have hexpect := expect_agrees c h
  rw [expect, skip_token hblank hslash] at hexpect
  dsimp only at hexpect
  rwa [if_pos rfl] at hexpect

theorem value_follows {depth : Nat} (hdepth : depth ≤ text.length + 1) :
    Follows text depth (Cursor.value text depth) (value depth) := by
  induction depth with
  | zero => exact fun i cs hbound _ => absurd hbound (Nat.not_lt_zero _)
  | succ depth ih =>
    intro i cs hbound hindex
    have hnested := ih (Nat.le_of_succ_le hdepth)
    obtain ⟨j, hskip, hat⟩ := skip_eq hindex
    have hlength := length_skip_le cs
    rw [Cursor.value, hskip, ok_bind, hat.head?_eq, value]
    generalize skip cs = ds at hat hlength
    cases ds with
    | nil => exact hat.fails _
    | cons c rest =>
      rw [List.length_cons] at hlength
      dsimp only [List.head?_cons]
      by_cases hbrace : c = '\x7b'
      · subst hbrace
        obtain ⟨k, hexpect, hinner⟩ := expect_opening (by decide) (by decide) hat
        rw [if_pos rfl, if_pos rfl, hexpect, ok_bind]
        refine (members_follows (by omega) hnested (value_isStrict depth) (by omega) (by omega)
          (by omega) hinner).bind fun pairs rest j _ hindex => ?_
        exact .ok hindex
      · rw [if_neg hbrace, if_neg hbrace]
        by_cases hparen : c = '('
        · subst hparen
          obtain ⟨k, hexpect, hinner⟩ := expect_opening (by decide) (by decide) hat
          rw [if_pos rfl, if_pos rfl, hexpect, ok_bind]
          refine (items_follows hnested (value_isStrict depth) (by omega) (by omega)
            (by omega) hinner).bind fun vs rest j _ hindex => ?_
          exact .ok hindex
        · rw [if_neg hparen, if_neg hparen]
          by_cases hquote : c = '"' ∨ c = '\''
          · rw [if_pos hquote, if_pos hquote]
            refine (quoted_follows (by simpa [Scan.isQuote] using hquote) _ _ (by omega)
              hat.next).bind fun s rest j _ hindex => ?_
            exact .ok hindex
          · rw [if_neg hquote, if_neg hquote]
            refine (word_follows _ _ (by rw [List.length_cons]; omega) hat).bind
              fun chars rest j _ hindex => ?_
            exact .ok hindex

/-! ## Whole texts -/

/-- With an index, every text is read to the same end: no range is outside the text, and the steps
are never used up. -/
theorem parse_agrees (text : List Char) :
    Cursor.parse text = Halt.ofResult ((parse text).mapError
        fun fault => .propertyList (fault.offset text) fault.cause) ∧
      ∀ fault, parse text = .error fault → At text (fault.offset text) fault.rest := by
  have hread := value_follows (Nat.le_refl (text.length + 1)) 0 text (Nat.lt_succ_self _)
    (.start text)
  refine hread.whole (fun v i rest hindex hrest => ?_) fun v i rest hindex hrest => ?_
  · obtain ⟨j, hskip, hat⟩ := skip_eq hindex
    have hlength := hat.length_eq
    rw [hrest, List.length_nil] at hlength
    dsimp only
    rw [hskip, ok_bind, if_neg (by omega)]
  · obtain ⟨j, hskip, hat⟩ := skip_eq hindex
    have hlength := hat.length_eq
    have hpos := List.length_pos_iff.2 hrest
    refine ⟨_, ?_, hat.at_offset⟩
    dsimp only
    rw [hskip, ok_bind, if_pos (by omega)]
    rfl

end RankedRules.PropertyList
