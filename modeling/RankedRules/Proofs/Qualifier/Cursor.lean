/-
Qualifiers: reading with a position in bytes.

The cursors here read a qualifier at a position of the whole text, which they move on by the sizes
of the words, signs and characters that they have seen. Blanks in front of a word that is not there
are passed over all the same, so a cursor and a reader stand at the same place up to blanks. The
loops and the nesting of parentheses have as many steps as the text has characters, and one more.

* `Qualifier.Cursor.parse` — the qualifier that a whole text is, read with positions;
* `Near` — a position and a rest of the text, up to blanks;
* `Follows` — a cursor agrees with a reader wherever both are near to each other;
* `Qualifier.parse_agrees` — positions lead to the same result.
-/
import RankedRules.Proofs.Qualifier.Settled
import RankedRules.Proofs.Text.Cursor
import RankedRules.Rule.Parser

namespace RankedRules.Qualifier

open Text

namespace Cursor

variable (text : List Char)

/-! ## Reading at a position -/

/-- The text from a position on. -/
def left (pos : Nat) : Except Halt (List Char) :=
  slice (from? text pos)

/-- An error at a position. -/
def fail {α : Type} (cause : Cause) (pos : Nat) : Except Halt α :=
  .error (.error (.qualifier pos cause))

/-- The position behind the blanks at a position. -/
def skipBlanks (pos : Nat) : Except Halt Nat := do
  let cs ← left text pos
  .ok (byteSize text - byteSize (trimStart cs))

/-- Whether a word comes next, behind blanks. The blanks are passed over in any case. -/
def eatWord (word : String) : Cursor Bool := fun pos => do
  let pos ← skipBlanks text pos
  let cs ← left text pos
  match upTo? cs word.utf8ByteSize with
  | none => .ok (false, pos)
  | some head =>
    if head.map Char.toUpper = word.toList then do
      let behind ← slice (from? cs word.utf8ByteSize)
      if (behind.head?.map isKeyChar).getD false then .ok (false, pos)
      else .ok (true, pos + word.utf8ByteSize)
    else .ok (false, pos)

/-- A run of key characters without an empty segment. -/
def keyPath : Cursor String := fun pos => do
  let pos ← skipBlanks text pos
  let cs ← left text pos
  let size := byteSize (cs.takeWhile isKeyChar)
  if size = 0 then fail .expectedKeyPath pos
  else do
    let key ← slice (upTo? cs size)
    if key.head? = some '.' ∨ key.getLast? = some '.' ∨ hasEmptySegment key then
      fail .malformedKeyPath pos
    else .ok (String.ofList key, pos + size)

/-- A comparison operator. -/
def operator : Cursor Operator := fun pos => do
  let pos ← skipBlanks text pos
  let cs ← left text pos
  let signs := byteSize ((cs.takeWhile isOperatorSign).take 2)
  let size :=
    if 0 < signs then signs else byteSize (cs.takeWhile fun c => c.isAlpha || c = ':')
  let token ← slice (upTo? cs size)
  match Operator.ofToken? (String.ofList token) with
  | some op => .ok (op, pos + size)
  | none => fail .expectedOperator pos

/-- The characters up to a closing quote and the distance to the place behind it, given whether the
next character stands behind a backslash, and its distance. -/
def closing? (quote : Char) : Bool → Nat → List Char → Option (List Char × Nat)
  | _, _, [] => none
  | true, offset, c :: cs =>
    (closing? quote false (offset + c.utf8Size) cs).map fun (chars, stop) => (c :: chars, stop)
  | false, offset, c :: cs =>
    if c = '\\' then closing? quote true (offset + c.utf8Size) cs
    else if c = quote then some ([], offset + c.utf8Size)
    else
      (closing? quote false (offset + c.utf8Size) cs).map fun (chars, stop) => (c :: chars, stop)

/-- A string in quotes. If it is not closed, the error stands where it begins. -/
def quoted (quote : Char) : Cursor String := fun start => do
  let pos := start + quote.utf8Size
  let cs ← left text pos
  match closing? quote false 0 cs with
  | some (chars, stop) => .ok (String.ofList chars, pos + stop)
  | none => fail .unterminatedString start

/-- A number. -/
def number : Cursor Number := fun pos => do
  let cs ← left text pos
  let size := byteSize (numberChars cs)
  let token ← slice (upTo? cs size)
  match Number.ofChars? token with
  | some n => .ok (n, pos + size)
  | none => fail .invalidNumber pos

/-- The right side of a comparison. -/
def operand : Cursor Operand := fun pos => do
  let pos ← skipBlanks text pos
  let cs ← left text pos
  match cs.head? with
  | none => fail .expectedValue pos
  | some c =>
    if c = '"' ∨ c = '\'' then do
      let (s, pos) ← quoted text c pos
      .ok (.literal (.string s), pos)
    else if c.isDigit ∨ c = '-' then do
      let (n, pos) ← number text pos
      .ok (.literal (.number n), pos)
    else do
      let (word, pos) ← keyPath text pos
      .ok (wordOperand word, pos)

/-- A key path, an operator and an operand. -/
def comparison : Cursor Qualifier := fun pos => do
  let (left, pos) ← keyPath text pos
  let (op, pos) ← operator text pos
  let (right, pos) ← operand text pos
  match right with
  | .literal value => .ok (.compare left op value, pos)
  | .path right => .ok (.compareKeys left op right, pos)

/-- A single condition or an expression in parentheses, which `nested` reads. -/
def primary (nested : Cursor Qualifier) : Cursor Qualifier := fun pos => do
  let pos ← skipBlanks text pos
  let cs ← left text pos
  if cs.head? = some '(' then do
    let (inner, pos) ← nested (pos + 1)
    let pos ← skipBlanks text pos
    let cs ← left text pos
    if cs.head? = some ')' then .ok (inner, pos + 1) else fail .expectedClosing pos
  else if "*true*".toList.isPrefixOf cs then
    .ok (.constant true, pos + "*true*".utf8ByteSize)
  else if "*false*".toList.isPrefixOf cs then
    .ok (.constant false, pos + "*false*".utf8ByteSize)
  else comparison text pos

/-- An item behind any number of `NOT`. -/
def negation (item : Cursor Qualifier) : Nat → Cursor Qualifier
  | 0, _ => .error .unfinished
  | steps + 1, pos => do
    let (eaten, pos) ← eatWord text "NOT" pos
    if eaten then do
      let (inner, pos) ← negation item steps pos
      .ok (.not inner, pos)
    else item pos

/-- Items with a word between them. -/
def chain (word : String) (item : Cursor Qualifier) : Nat → Cursor (List Qualifier)
  | 0, _ => .error .unfinished
  | steps + 1, pos => do
    let (first, pos) ← item pos
    let (eaten, pos) ← eatWord text word pos
    if eaten then do
      let (others, pos) ← chain word item steps pos
      .ok (first :: others, pos)
    else .ok ([first], pos)

/-- A chain of items as one qualifier. -/
def combination (connective : Connective) (item : Cursor Qualifier) (steps : Nat) :
    Cursor Qualifier := fun pos => do
  let (members, pos) ← chain text connective.word item steps pos
  .ok (combine connective members, pos)

/-- A qualifier whose parentheses are nested at most as deep as `depth`. -/
def expression (steps : Nat) : Nat → Cursor Qualifier
  | 0, _ => .error .unfinished
  | depth + 1, pos =>
    combination text .any (combination text .all
      (negation text (primary text (expression steps depth)) steps) steps) steps pos

/-- The qualifier that the whole text is. -/
def parse : Except Halt Qualifier := do
  let bound := text.length + 1
  let (qualifier, pos) ← expression text bound bound 0
  let pos ← skipBlanks text pos
  if pos < byteSize text then fail .trailing pos else .ok qualifier

end Cursor

/-! ## The same position up to blanks -/

variable {text : List Char}

/-- A rest of the text begins at a position, or would without the blanks in front of both. -/
def Near (text : List Char) (pos : Nat) (cs : List Char) : Prop :=
  ∃ cs', At text pos cs' ∧ trimStart cs' = trimStart cs

/-- A cursor agrees with a reader on all rests of a text that are shorter than a bound. -/
def Follows {α : Type} (text : List Char) (bound : Nat) (cursor : Cursor α)
    (read : Reader Cause α) : Prop :=
  ∀ pos cs, cs.length < bound → Near text pos cs →
    Agrees (Near text) .qualifier text (read cs) (cursor pos)

theorem Near.of_at {pos : Nat} {cs : List Char} (h : At text pos cs) : Near text pos cs :=
  ⟨cs, h, rfl⟩

theorem left_eq {pos : Nat} {cs : List Char} (h : At text pos cs) : Cursor.left text pos = .ok cs :=
  slice_from h

theorem skipBlanks_eq {pos : Nat} {cs : List Char} (h : Near text pos cs) :
    ∃ pos', Cursor.skipBlanks text pos = .ok pos' ∧ At text pos' (trimStart cs) := by
  obtain ⟨cs', ⟨front, rfl, rfl⟩, htrim⟩ := h
  obtain ⟨blanks, -, hcs'⟩ := exists_trimStart cs'
  have hat : At (front ++ cs') (byteSize (front ++ blanks)) (trimStart cs) :=
    ⟨front ++ blanks, by rw [← htrim, List.append_assoc, ← hcs'], rfl⟩
  refine ⟨byteSize (front ++ blanks), ?_, hat⟩
  rw [Cursor.skipBlanks, left_eq ⟨front, rfl, rfl⟩, ok_bind, htrim]
  exact congrArg Except.ok hat.offsetIn_eq

/-! ## Tokens -/

theorem utf8Size_toUpper (c : Char) : c.toUpper.utf8Size = c.utf8Size := by
  by_cases hlower : 'a'.val ≤ c.val ∧ c.val ≤ 'z'.val
  · -- A small letter and its capital both take one byte.
    have hrange : 97 ≤ c.val.toNat ∧ c.val.toNat ≤ 122 := hlower
    obtain ⟨d, hd, hupper⟩ : ∃ d : Char, d.val = c.val + ('A'.val - 'a'.val) ∧ c.toUpper = d := by
      refine ⟨_, ?_, dif_pos hlower⟩
      rfl
    have hshift : ('A'.val - 'a'.val).toNat = 4294967264 := by decide
    have hsize : c.utf8Size = 1 := by
      rw [Char.utf8Size_eq_one_iff, UInt32.le_iff_toNat_le]
      exact Nat.le_trans hrange.2 (by decide)
    rw [hsize, hupper, Char.utf8Size_eq_one_iff, hd, UInt32.le_iff_toNat_le, UInt32.toNat_add,
      hshift]
    show (c.val.toNat + 4294967264) % 4294967296 ≤ 127
    omega
  · have hsame : c.toUpper = c := dif_neg hlower
    rw [hsame]

theorem byteSize_toUpper (cs : List Char) : byteSize (cs.map Char.toUpper) = byteSize cs := by
  induction cs with
  | nil => rfl
  | cons c cs ih => rw [List.map_cons, byteSize, byteSize, utf8Size_toUpper, ih]

/-- A front of the text that is the word is read, if the word ends there. -/
theorem afterWord?_front (head behind : List Char) :
    afterWord? (head.map Char.toUpper) (head ++ behind) =
      if (behind.head?.map isKeyChar).getD false then none else some behind := by
  induction head with
  | nil => rw [List.map_nil, List.nil_append, afterWord?]
  | cons c head ih => rw [List.map_cons, List.cons_append, afterWord?, if_pos rfl, ih]

/-- The position behind a word is found by its size, since it has the size of the letters that it
is written with. -/
theorem eatWord_eq (word : String) {pos : Nat} {cs : List Char} (h : Near text pos cs) :
    ∃ pos', Cursor.eatWord text word pos = .ok ((keyword? word cs).isSome, pos') ∧
      Near text pos' ((keyword? word cs).getD cs) := by
  obtain ⟨pos, hskip, hat⟩ := skipBlanks_eq h
  rw [Cursor.eatWord, hskip, ok_bind, left_eq hat, ok_bind, keyword?]
  have hnear : Near text pos cs := ⟨trimStart cs, hat, trimStart_trimStart cs⟩
  generalize trimStart cs = ds at hat
  -- The part of the text that is as long as the word is the only one that can be the word.
  have honly : ∀ rest, afterWord? word.toList ds = some rest →
      ∃ head, upTo? ds word.utf8ByteSize = some head ∧ head.map Char.toUpper = word.toList := by
    intro rest hrest
    obtain ⟨head, rfl, hhead⟩ := afterWord?_eq_some hrest
    refine ⟨head, ?_, hhead⟩
    rw [← byteSize_toList, ← hhead, byteSize_toUpper, upTo?_append]
  cases hhead : upTo? ds word.utf8ByteSize with
  | none =>
    have hnone : afterWord? word.toList ds = none := by
      refine Option.eq_none_iff_forall_ne_some.2 fun rest hrest => ?_
      obtain ⟨head, hfound, -⟩ := honly rest hrest
      rw [hhead] at hfound
      cases hfound
    rw [hnone]
    exact ⟨pos, rfl, hnear⟩
  | some head =>
    obtain ⟨behind, rfl, hsize⟩ := upTo?_eq_some.1 hhead
    dsimp only
    split
    · rename_i hword
      have hadvance := hat.advance
      rw [← hsize] at hadvance
      rw [slice_from ⟨head, rfl, hsize⟩, ok_bind, ← hword, afterWord?_front]
      split
      · exact ⟨pos, rfl, hnear⟩
      · exact ⟨pos + word.utf8ByteSize, rfl, .of_at hadvance⟩
    · rename_i hword
      have hnone : afterWord? word.toList (head ++ behind) = none := by
        refine Option.eq_none_iff_forall_ne_some.2 fun rest hrest => ?_
        obtain ⟨head', hfound, hhead'⟩ := honly rest hrest
        rw [hhead] at hfound
        cases hfound
        exact hword hhead'
      rw [hnone]
      exact ⟨pos, rfl, hnear⟩

/-- A front of the rest is taken as an operator, or there is none. -/
theorem token_agrees {pos : Nat} {ds token : List Char} (hat : At text pos ds)
    (htoken : token <+: ds) :
    Agrees (Near text) .qualifier text
      (match Operator.ofToken? (String.ofList token) with
        | some op => .ok (op, ds.drop token.length)
        | none => .error ⟨.expectedOperator, ds⟩)
      (do
        let found ← slice (upTo? ds (byteSize token))
        match Operator.ofToken? (String.ofList found) with
        | some op => .ok (op, pos + byteSize token)
        | none => Cursor.fail .expectedOperator pos) := by
  obtain ⟨rest, rfl⟩ := htoken
  rw [slice_upTo, ok_bind, List.drop_left]
  cases Operator.ofToken? (String.ofList token) with
  | none => exact .error hat
  | some op => exact .ok (.of_at hat.advance)

theorem operator_follows (bound : Nat) : Follows text bound (Cursor.operator text) operator := by
  intro pos cs _ hnear
  obtain ⟨pos, hskip, hat⟩ := skipBlanks_eq hnear
  rw [Cursor.operator, hskip, ok_bind, left_eq hat, ok_bind, operator]
  generalize trimStart cs = ds at hat
  dsimp only
  have hbegins : (ds.takeWhile isOperatorSign).take 2 <+: ds :=
    (List.take_prefix 2 _).trans (List.takeWhile_prefix _)
  generalize (ds.takeWhile isOperatorSign).take 2 = signs at hbegins
  cases signs with
  | nil =>
    have hsize : ¬0 < byteSize [] := Nat.lt_irrefl 0
    rw [if_neg hsize]
    exact token_agrees hat (List.takeWhile_prefix _)
  | cons c signs =>
    rw [if_pos (Nat.pos_of_ne_zero (byteSize_ne_zero (List.cons_ne_nil c signs)))]
    exact token_agrees hat hbegins

/-- A closing quote is found at the same place as characters and a rest, counted from an offset. -/
def ClosesAt (offset : Nat) (cs : List Char) (read : Option (List Char × List Char))
    (found : Option (List Char × Nat)) : Prop :=
  match read with
  | some (chars, rest) =>
    ∃ front, cs = front ++ rest ∧ found = some (chars, offset + byteSize front)
  | none => found = none

/-- One more character in front, which may stand behind a backslash. -/
theorem ClosesAt.cons {offset : Nat} (front : List Char) {cs : List Char}
    {read : Option (List Char × List Char)} {found : Option (List Char × Nat)}
    (h : ClosesAt (offset + byteSize front) cs read found) (c : Char) :
    ClosesAt offset (front ++ cs) (read.map fun (chars, rest) => (c :: chars, rest))
      (found.map fun (chars, stop) => (c :: chars, stop)) := by
  cases read with
  | none => exact congrArg _ h
  | some pair =>
    obtain ⟨front', rfl, rfl⟩ := h
    refine ⟨front ++ front', by rw [List.append_assoc], ?_⟩
    rw [Option.map_some, byteSize_append, Nat.add_assoc]

/-- The loop over the characters ends at the same closing quote. -/
theorem closing?_closesAt (quote : Char) (cs : List Char) (offset : Nat) :
    ClosesAt offset cs (quotedChars? quote cs) (Cursor.closing? quote false offset cs) := by
  -- A character that is not read with the one behind it is no backslash.
  have hplain : ∀ (c : Char) (cs : List Char), (c = '\\' → cs = [] → False) →
      (∀ d ds, c = '\\' → cs = d :: ds → False) → c ≠ '\\' := by
    rintro c (_ | ⟨d, ds⟩) hlone hslash hc
    · exact hlone hc rfl
    · exact hslash d ds hc rfl
  induction cs using quotedChars?.induct quote generalizing offset with
  | case1 => rfl
  | case2 => rfl
  | case3 c cs ih =>
    rw [quotedChars?, Cursor.closing?, if_pos rfl, Cursor.closing?]
    refine ClosesAt.cons ['\\', c] ?_ c
    rw [Nat.add_assoc]
    exact ih _
  | case4 cs hlone hslash =>
    rw [quotedChars?.eq_4 _ _ _ hlone hslash, if_pos rfl, Cursor.closing?,
      if_neg (hplain _ _ hlone hslash), if_pos rfl]
    exact ⟨[quote], rfl, rfl⟩
  | case5 c cs hlone hslash hne ih =>
    rw [quotedChars?.eq_4 _ _ _ hlone hslash, if_neg hne, Cursor.closing?,
      if_neg (hplain _ _ hlone hslash), if_neg hne]
    exact ClosesAt.cons [c] (ih _) c

theorem quoted_agrees {α : Type} (f : String → α) {quote : Char} {pos : Nat} {rest : List Char}
    (hat : At text pos (quote :: rest)) :
    Agrees (Near text) .qualifier text
      (match quotedChars? quote rest with
        | some (chars, rest) => .ok (f (String.ofList chars), rest)
        | none => .error ⟨.unterminatedString, quote :: rest⟩)
      (do
        let (s, pos) ← Cursor.quoted text quote pos
        .ok (f s, pos)) := by
  have hbehind := hat.next
  rw [Cursor.quoted, left_eq hbehind, ok_bind]
  have hclose := closing?_closesAt quote rest 0
  cases hquoted : quotedChars? quote rest with
  | none =>
    rw [hquoted] at hclose
    rw [hclose]
    exact .error hat
  | some found =>
    rw [hquoted] at hclose
    obtain ⟨front, rfl, hfound⟩ := hclose
    rw [hfound, Nat.zero_add]
    exact .ok (.of_at hbehind.advance)

theorem number_agrees {α : Type} (f : Number → α) {pos : Nat} {cs : List Char}
    (hat : At text pos cs) :
    Agrees (Near text) .qualifier text
      (match Number.ofChars? (numberChars cs) with
        | some n => .ok (f n, cs.drop (numberChars cs).length)
        | none => .error ⟨.invalidNumber, cs⟩)
      (do
        let (n, pos) ← Cursor.number text pos
        .ok (f n, pos)) := by
  obtain ⟨rest, hrest⟩ := (numberChars_begins cs).1
  rw [Cursor.number, left_eq hat, ok_bind]
  generalize numberChars cs = token at hrest
  subst hrest
  dsimp only
  rw [slice_upTo, ok_bind, List.drop_left]
  cases Number.ofChars? token with
  | none => exact .error hat
  | some n => exact .ok (.of_at hat.advance)

theorem keyPath_follows (bound : Nat) : Follows text bound (Cursor.keyPath text) keyPath := by
  intro pos cs _ hnear
  obtain ⟨pos, hskip, hat⟩ := skipBlanks_eq hnear
  rw [Cursor.keyPath, hskip, ok_bind, left_eq hat, ok_bind, keyPath]
  generalize trimStart cs = ds at hat
  have hsplit : ds.takeWhile isKeyChar ++ ds.dropWhile isKeyChar = ds :=
    List.takeWhile_append_dropWhile
  generalize ds.takeWhile isKeyChar = key, ds.dropWhile isKeyChar = rest at hsplit
  subst hsplit
  cases key with
  | nil => exact .error hat
  | cons c key =>
    have hsize : byteSize (c :: key) ≠ 0 := byteSize_ne_zero (List.cons_ne_nil c key)
    dsimp only
    rw [slice_upTo, ok_bind, if_neg hsize]
    split
    · exact .error hat
    · exact .ok (.of_at hat.advance)

theorem operand_follows (bound : Nat) : Follows text bound (Cursor.operand text) operand := by
  intro pos cs _ hnear
  obtain ⟨pos, hskip, hat⟩ := skipBlanks_eq hnear
  rw [Cursor.operand, hskip, ok_bind, left_eq hat, ok_bind, operand]
  cases hcs : trimStart cs with
  | nil =>
    rw [hcs] at hat
    exact .error hat
  | cons c rest =>
    rw [hcs] at hat
    dsimp only [List.head?_cons]
    split
    · exact quoted_agrees (fun s => Operand.literal (.string s)) hat
    · split
      · exact number_agrees (fun n => Operand.literal (.number n)) hat
      · refine (keyPath_follows _ pos _ (Nat.le_refl _) (.of_at hat)).bind ?_
        exact fun word rest pos _ hnear => .ok hnear

theorem comparison_follows (bound : Nat) :
    Follows text bound (Cursor.comparison text) comparison := by
  intro pos cs _ hnear
  refine (keyPath_follows _ pos cs (Nat.le_refl _) hnear).bind fun left rest pos _ hnear => ?_
  refine (operator_follows _ pos rest (Nat.le_refl _) hnear).bind fun op rest pos _ hnear => ?_
  refine (operand_follows _ pos rest (Nat.le_refl _) hnear).bind fun right rest pos _ hnear => ?_
  cases right with
  | literal value => exact .ok hnear
  | path right => exact .ok hnear

/-! ## Combinations -/

theorem head?_ne {c : Char} {cs : List Char} (h : ∀ rest, cs = c :: rest → False) :
    cs.head? ≠ some c := by
  intro hhead
  obtain ⟨rest, hrest⟩ := List.head?_eq_some_iff.1 hhead
  exact h rest hrest

/-- A constant at the start of the rest. -/
theorem after?_of_begins {front : String} {pos : Nat} {cs : List Char} (hat : At text pos cs)
    (hfront : front.toList.isPrefixOf cs = true) :
    ∃ rest, after? front cs = some rest ∧ At text (pos + front.utf8ByteSize) rest := by
  obtain ⟨rest, rfl⟩ := List.isPrefixOf_iff_prefix.1 hfront
  refine ⟨rest, ?_, ?_⟩
  · rw [after?, if_pos hfront, ← String.length_toList, List.drop_left]
  · rw [← byteSize_toList]
    exact hat.advance

theorem primary_follows {nested : Reader Cause Qualifier} {nested' : Cursor Qualifier}
    {bound : Nat} (h : Follows text bound nested' nested) :
    Follows text (bound + 1) (Cursor.primary text nested') (primary nested) := by
  intro pos cs hbound hnear
  obtain ⟨pos, hskip, hat⟩ := skipBlanks_eq hnear
  rw [Cursor.primary, hskip, ok_bind, left_eq hat, ok_bind, primary]
  have hlength := length_trimStart_le cs
  generalize trimStart cs = ds at hat hlength
  split
  · rename_i rest
    rw [List.head?_cons, if_pos rfl]
    have hrest : rest.length < bound := by
      rw [List.length_cons] at hlength
      omega
    refine (h (pos + 1) rest hrest (.of_at hat.next)).bind fun inner rest pos _ hnear => ?_
    obtain ⟨pos, hskip, hat⟩ := skipBlanks_eq hnear
    dsimp only
    rw [hskip, ok_bind, left_eq hat, ok_bind]
    generalize trimStart rest = behind at hat
    split
    · rw [List.head?_cons, if_pos rfl]
      exact .ok (.of_at hat.next)
    · rename_i hne
      rw [if_neg (head?_ne hne)]
      exact .error hat
  · rename_i hne
    rw [if_neg (head?_ne hne)]
    by_cases htrue : "*true*".toList.isPrefixOf ds = true
    · obtain ⟨rest, hafter, hbehind⟩ := after?_of_begins hat htrue
      rw [if_pos htrue, hafter]
      exact .ok (.of_at hbehind)
    · have hnone : after? "*true*" ds = none := if_neg htrue
      rw [if_neg htrue, hnone]
      by_cases hfalse : "*false*".toList.isPrefixOf ds = true
      · obtain ⟨rest, hafter, hbehind⟩ := after?_of_begins hat hfalse
        rw [if_pos hfalse, hafter]
        exact .ok (.of_at hbehind)
      · have hnone : after? "*false*" ds = none := if_neg hfalse
        rw [if_neg hfalse, hnone]
        exact comparison_follows _ pos ds (Nat.le_refl _) (.of_at hat)

/-- What follows a word is shorter than the text with the word. -/
theorem length_keyword?_lt {word : String} (hword : word ≠ "") {cs rest : List Char}
    (h : keyword? word cs = some rest) : rest.length < cs.length := by
  obtain ⟨front, hcs, hfront⟩ := afterWord?_eq_some h
  have hlength := length_trimStart_le cs
  rw [hcs, List.length_append] at hlength
  have hpos : 0 < front.length := by
    rw [← List.length_map, hfront]
    exact List.length_pos_iff.2 fun hnil => hword (String.toList_eq_nil_iff.1 hnil)
  omega

theorem negation_follows {item : Reader Cause Qualifier} {item' : Cursor Qualifier} {bound : Nat}
    (h : Follows text bound item' item) {n steps : Nat} {pos : Nat} {cs : List Char}
    (hbound : cs.length < bound) (hn : cs.length ≤ n) (hsteps : cs.length < steps)
    (hnear : Near text pos cs) :
    Agrees (Near text) .qualifier text (negation item n cs)
      (Cursor.negation text item' steps pos) := by
  induction steps generalizing n pos cs with
  | zero => omega
  | succ steps ih =>
    obtain ⟨pos', heaten, hnear'⟩ := eatWord_eq "NOT" hnear
    rw [Cursor.negation, heaten, ok_bind]
    cases hword : keyword? "NOT" cs with
    | none =>
      rw [hword] at hnear'
      have hitem : negation item n cs = item cs := by
        cases n with
        | zero => rw [negation]
        | succ n => rw [negation, hword]
      rw [hitem]
      exact h pos' cs hbound hnear'
    | some rest =>
      rw [hword, Option.getD_some] at hnear'
      -- The word takes characters of its own, so the bounds are enough for what follows it.
      have hlt := length_keyword?_lt (by decide) hword
      obtain ⟨n, rfl⟩ : ∃ k, n = k + 1 := ⟨n - 1, by omega⟩
      rw [negation, hword]
      refine (ih (by omega) (by omega) (by omega) hnear').bind fun inner rest pos _ hnear => ?_
      exact .ok hnear

theorem chain_follows {connective : Connective} {item : Reader Cause Qualifier}
    {item' : Cursor Qualifier} {bound : Nat} (h : Follows text bound item' item)
    (hstrict : ∀ cs q rest, item cs = .ok (q, rest) → rest.length < cs.length) {n steps : Nat}
    {pos : Nat} {cs : List Char} (hbound : cs.length < bound) (hn : cs.length ≤ n)
    (hsteps : cs.length < steps) (hnear : Near text pos cs) :
    Agrees (Near text) .qualifier text (chain connective.word item n cs)
      (Cursor.chain text connective.word item' steps pos) := by
  induction steps generalizing n pos cs with
  | zero => omega
  | succ steps ih =>
    rw [Cursor.chain]
    cases n with
    | zero =>
      -- The text is empty, and no item is read from it.
      rw [chain]
      refine (h pos cs hbound hnear).bind fun first rest pos hread hnear => ?_
      have hlt := hstrict _ _ _ hread
      omega
    | succ n =>
      rw [chain]
      refine (h pos cs hbound hnear).bind fun first rest pos hread hnear => ?_
      have hlt := hstrict _ _ _ hread
      obtain ⟨pos', heaten, hnear'⟩ := eatWord_eq connective.word hnear
      dsimp only
      rw [heaten, ok_bind]
      cases hword : keyword? connective.word rest with
      | none =>
        rw [hword] at hnear'
        exact .ok hnear'
      | some behind =>
        rw [hword, Option.getD_some] at hnear'
        have hne : connective.word ≠ "" := by cases connective <;> decide
        have hless := length_keyword?_lt hne hword
        refine (ih (by omega) (by omega) (by omega) hnear').bind fun others rest pos _ hnear => ?_
        exact .ok hnear

theorem combination_follows {connective : Connective} {item : Reader Cause Qualifier}
    {item' : Cursor Qualifier} {bound : Nat} (h : Follows text bound item' item)
    (hstrict : ∀ cs q rest, item cs = .ok (q, rest) → rest.length < cs.length) {steps : Nat}
    (hsteps : bound ≤ steps) :
    Follows text bound (Cursor.combination text connective item' steps)
      (combination connective item) := by
  intro pos cs hbound hnear
  refine (chain_follows h hstrict hbound (Nat.le_refl _) (by omega) hnear).bind
    fun members rest pos _ hnear => ?_
  exact .ok hnear

theorem expression_follows {steps depth : Nat} (hsteps : depth ≤ steps) :
    Follows text depth (Cursor.expression text steps depth) (expression depth) := by
  induction depth with
  | zero => exact fun pos cs hbound _ => absurd hbound (Nat.not_lt_zero _)
  | succ depth ih =>
    -- A parenthesis takes a character, so the bound on the length is the one on the depth.
    have hprimary := primary_follows (ih (Nat.le_of_succ_le hsteps))
    have hitem : Follows text (depth + 1)
        (Cursor.negation text (Cursor.primary text (Cursor.expression text steps depth)) steps)
        (item depth) := fun pos cs hbound hnear =>
      negation_follows hprimary hbound (Nat.le_refl _) (by omega) hnear
    have hnested : ∀ cs q rest, expression depth cs = .ok (q, rest) → Takes 0 cs rest :=
      fun _ _ _ hread => (expression_takes hread).mono (Nat.zero_le _)
    have hstrict : ∀ cs q rest, item depth cs = .ok (q, rest) → Takes 2 cs rest :=
      fun _ _ _ hread => item_takes hnested hread
    rw [expression_succ]
    refine combination_follows (combination_follows hitem ?_ hsteps) ?_ hsteps
    · exact fun cs q rest hread => (hstrict cs q rest hread).length_lt (by decide)
    · exact fun cs q rest hread => (combination_takes hstrict hread).length_lt (by decide)

/-! ## Whole texts -/

/-- With positions, every text is read to the same end: no slice cuts a character apart, and the
steps are never used up. -/
theorem parse_agrees (text : List Char) :
    Cursor.parse text = Halt.ofResult ((parse text).mapError
        fun fault => .qualifier (fault.offset text) fault.cause) ∧
      ∀ fault, parse text = .error fault → At text (fault.offset text) fault.rest := by
  have hread := expression_follows (Nat.le_refl (text.length + 1)) 0 text (Nat.lt_succ_self _)
    (.of_at (.start text))
  refine hread.whole (fun q pos rest hnear hrest => ?_) fun q pos rest hnear hrest => ?_
  · obtain ⟨pos', hskip, hat⟩ := skipBlanks_eq hnear
    rw [hrest] at hat
    dsimp only
    rw [hskip, ok_bind, hat.eq_of_nil, if_neg (Nat.lt_irrefl _)]
  · obtain ⟨pos', hskip, hat⟩ := skipBlanks_eq hnear
    refine ⟨pos', ?_, hat⟩
    dsimp only
    rw [hskip, ok_bind, if_pos (hat.lt hrest)]
    rfl

end RankedRules.Qualifier
