/-
The first open occurrence.

A scan keeps which quote is open, whether a backslash stands before the next character, and how many
brackets are open. What the text that was read has to do with these can be said without a scan: it
closes its quotes if it consists of quoted parts, each up to the quote that closes it, and of
characters that are no quotes, and the brackets are counted among the latter. Nothing is open where
such a text ends, and the scan finds the first of these positions at which the needle stands.

* `Scan.Unquoted` — a text that closes its quotes, and what stands outside of them;
* `Scan.depth` — how many brackets are open behind what stands outside of quotes;
* `Scan.OpenAt`, `Scan.OccursAt` — the positions at which nothing is open, and those of a needle;
* `Scan.Stands` — what has been read when a scan is in a state, kept by one more character
  (`Scan.Stands.next`) and so by a whole text (`Scan.Stands.after`);
* `Scan.openAt_iff` — a position is open exactly if the character there is free;
* `Scan.finds_first_open` — a scan finds the first open position of the needle.
-/
import Mathlib.Order.Bounds.Basic
import RankedRules.Proofs.Text.Cursor
import RankedRules.Proofs.Text.Settled

namespace RankedRules.Scan

open Text

variable {nesting : Bool} {needle text front rest behind bare : List Char} {pos : Nat} {c : Char}

/-! ## Where nothing is open -/

/-- A text that closes every quote that it opens, and what is left of it without the quoted
parts. -/
inductive Unquoted : List Char → List Char → Prop
  | nil : Unquoted [] []
  | plain {text bare : List Char} {c : Char} (h : Unquoted text bare)
      (hc : c ≠ '"' ∧ c ≠ '\'') : Unquoted (text ++ [c]) (bare ++ [c])
  | quoted {text bare tail : List Char} {quote : Char} (h : Unquoted text bare)
      (hquote : quote = '"' ∨ quote = '\'') (htail : QuotedTail quote tail) :
      Unquoted (text ++ quote :: tail) bare

/-- How many brackets are open behind a text. A closing bracket does not count where none is
open. -/
def depth (bare : List Char) : Nat :=
  bare.foldl (fun depth c =>
    if c = '\x7b' ∨ c = '(' then depth + 1
    else if c = '\x7d' ∨ c = ')' then depth - 1
    else depth) 0

theorem depth_concat (bare : List Char) (c : Char) : depth (bare ++ [c]) =
    if c = '\x7b' ∨ c = '(' then depth bare + 1
    else if c = '\x7d' ∨ c = ')' then depth bare - 1
    else depth bare := by
  simp only [depth, List.foldl_append, List.foldl_cons, List.foldl_nil]

/-- In front of the position every quote is closed, and no quote stands there. If brackets count,
none is open in front of the position either, and none stands there. -/
def OpenAt (nesting : Bool) (text : List Char) (pos : Nat) : Prop :=
  ∃ front rest bare, text = front ++ rest ∧ pos = byteSize front ∧ Unquoted front bare ∧
    (∀ c ∈ rest.head?, c ≠ '"' ∧ c ≠ '\'') ∧
    (nesting = true → depth bare = 0 ∧ ∀ c ∈ rest.head?, c ∉ ['\x7b', '(', '\x7d', ')'])

/-- The needle stands in the text at the position. -/
def OccursAt (needle text : List Char) (pos : Nat) : Prop :=
  ∃ behind, At text pos (needle ++ behind)

/-- Where nothing is open if brackets count, nothing is open if they do not. -/
theorem OpenAt.ignoreNesting (h : OpenAt nesting text pos) : OpenAt false text pos := by
  obtain ⟨front, rest, bare, htext, hpos, hfront, hquote, -⟩ := h
  exact ⟨front, rest, bare, htext, hpos, hfront, hquote, fun hnesting => by cases hnesting⟩

/-! ## The state of a scan -/

/-- How many brackets a scan takes for open behind a text without quotes. -/
def level (nesting : Bool) (bare : List Char) : Nat :=
  if nesting then depth bare else 0

theorem isQuote_iff : isQuote c = true ↔ c = '"' ∨ c = '\'' := by
  simp [isQuote]

theorem isFree_iff {s : State} : isFree nesting s c = true ↔
    s.quote = none ∧ s.depth = 0 ∧ (c ≠ '"' ∧ c ≠ '\'') ∧
      (nesting = true → c ∉ ['\x7b', '(', '\x7d', ')']) := by
  cases nesting <;> simp [isFree, isQuote, isOpening, isClosing, and_assoc]

/-- Outside of quotes, a character that is no quote only counts as a bracket. -/
theorem next_outside (hc : c ≠ '"' ∧ c ≠ '\'') (bare : List Char) :
    (outside (level nesting bare)).next nesting c = outside (level nesting (bare ++ [c])) := by
  have hquote : isQuote c = false := Bool.eq_false_iff.2 fun h => (isQuote_iff.1 h).elim hc.1 hc.2
  cases nesting with
  | false => simp [State.next, hquote, level]
  | true =>
    simp only [State.next, hquote, level, depth_concat, isOpening, isClosing, Bool.true_and,
      Bool.or_eq_true, decide_eq_true_eq, Bool.false_eq_true, if_false, if_true]
    split
    · rfl
    · split <;> rfl

/-- Behind a text that closes its quotes, a scan is outside of them. -/
theorem Unquoted.after_eq (h : Unquoted text bare) :
    ({} : State).after nesting text = outside (level nesting bare) := by
  induction h with
  | nil => cases nesting <;> rfl
  | @plain text bare c _ hc ih =>
    rw [after_append, ih]
    exact next_outside hc bare
  | @quoted text bare tail quote _ hquote htail ih =>
    -- Only the state matters here, not the character that is looked for.
    have hsettled : Settled nesting ' ' (level nesting bare) (quote :: tail) :=
      .quoted (isQuote_iff.2 hquote) htail
    rw [after_append, ih, hsettled.state]

/-- A part behind an opening quote that does not close it: what closes the quote still does so
behind this part. -/
def Unclosed (quote : Char) (inner : List Char) : Prop :=
  ∀ tail, QuotedTail quote tail → QuotedTail quote (inner ++ tail)

/-- What has been read when a scan is in a state: a text that closes its quotes, or such a text, a
quote and a part that does not close it, with or without a backslash that waits for a character. -/
inductive Stands (nesting : Bool) : List Char → State → Prop
  | outside {text bare : List Char} (h : Unquoted text bare) :
      Stands nesting text (outside (level nesting bare))
  | inside {front bare inner : List Char} {quote : Char} (h : Unquoted front bare)
      (hquote : quote = '"' ∨ quote = '\'') (hinner : Unclosed quote inner) :
      Stands nesting (front ++ quote :: inner) ⟨some quote, false, level nesting bare⟩
  | escaped {front bare inner : List Char} {quote : Char} (h : Unquoted front bare)
      (hquote : quote = '"' ∨ quote = '\'') (hinner : Unclosed quote inner) :
      Stands nesting (front ++ quote :: (inner ++ ['\\'])) ⟨some quote, true, level nesting bare⟩

namespace Stands

variable {s : State}

theorem start : Stands nesting [] {} := by
  have hstart : ({} : State) = Scan.outside (level nesting []) := by cases nesting <;> rfl
  rw [hstart]
  exact .outside .nil

/-- One more character is read. -/
theorem next (h : Stands nesting text s) (c : Char) :
    Stands nesting (text ++ [c]) (s.next nesting c) := by
  cases h with
  | @outside _ bare h =>
    by_cases hc : c = '"' ∨ c = '\''
    · have hnext : (Scan.outside (level nesting bare)).next nesting c =
          ⟨some c, false, level nesting bare⟩ := by
        simp [State.next, isQuote_iff.2 hc]
      rw [hnext]
      exact .inside h hc fun tail htail => htail
    · rw [next_outside (not_or.1 hc)]
      exact .outside (h.plain (not_or.1 hc))
  | @inside front bare inner quote h hquote hinner =>
    rw [List.append_assoc, List.cons_append]
    -- The part goes on, unless the character is a backslash or closes the quote.
    by_cases hslash : c = '\\'
    · subst hslash
      exact .escaped h hquote hinner
    · by_cases hc : c = quote
      · subst hc
        have hnext : (⟨some c, false, level nesting bare⟩ : State).next nesting c =
            Scan.outside (level nesting bare) := by
          simp [State.next, hslash]
        rw [hnext]
        exact .outside (h.quoted hquote (hinner [c] .close))
      · have hnext : (⟨some quote, false, level nesting bare⟩ : State).next nesting c =
            ⟨some quote, false, level nesting bare⟩ := by
          simp [State.next, hslash, hc]
        rw [hnext]
        refine .inside h hquote fun tail htail => ?_
        rw [List.append_assoc]
        exact hinner (c :: tail) (.plain hslash hc htail)
  | @escaped front bare inner quote h hquote hinner =>
    -- Whatever the character is, it uses up the backslash in front of it.
    rw [List.append_assoc, List.cons_append]
    refine .inside h hquote fun tail htail => ?_
    rw [List.append_assoc, List.append_assoc]
    exact hinner ('\\' :: c :: tail) (.escaped c htail)

/-- A text is read, character by character. -/
theorem after (h : Stands nesting front s) (text : List Char) :
    Stands nesting (front ++ text) (s.after nesting text) := by
  induction text generalizing front s with
  | nil =>
    rw [List.append_nil]
    exact h
  | cons c text ih =>
    have hrest := ih (h.next c)
    rwa [List.append_assoc] at hrest

/-- Where no quote is open, the text that was read closes its quotes. -/
theorem exists_unquoted (h : Stands nesting text s) (hquote : s.quote = none) :
    ∃ bare, Unquoted text bare ∧ s.depth = level nesting bare := by
  cases h with
  | @outside _ bare h => exact ⟨bare, h, rfl⟩
  | inside => cases hquote
  | escaped => cases hquote

end Stands

/-- A position is open exactly if a scan that has read the text in front of it finds the character
there free. -/
theorem openAt_iff : OpenAt nesting (front ++ c :: rest) (byteSize front) ↔
    isFree nesting (({} : State).after nesting front) c = true := by
  rw [isFree_iff]
  constructor
  · rintro ⟨before, more, bare, htext, hpos, hfront, hquote, hbracket⟩
    -- The position determines the part in front of it.
    have hbefore : front = before := Option.some.inj
      ((upTo?_eq_some.2 ⟨c :: rest, rfl, rfl⟩).symm.trans (upTo?_eq_some.2 ⟨more, htext, hpos⟩))
    subst hbefore
    cases List.append_cancel_left htext
    rw [hfront.after_eq]
    refine ⟨rfl, ?_, hquote c rfl, fun hnesting => (hbracket hnesting).2 c rfl⟩
    cases nesting with
    | false => rfl
    | true => exact (hbracket rfl).1
  · rintro ⟨hnone, hdepth, hquote, hbracket⟩
    obtain ⟨bare, hfront, hlevel⟩ := (Stands.start.after front).exists_unquoted hnone
    rw [hdepth] at hlevel
    refine ⟨front, c :: rest, bare, rfl, rfl, hfront, ?_, fun hnesting => ⟨?_, ?_⟩⟩
    · rintro _ ⟨⟩
      exact hquote
    · subst hnesting
      exact hlevel.symm
    · rintro _ ⟨⟩
      exact hbracket hnesting

/-! ## The first occurrence -/

section

variable (hneedle : needle ≠ [])
include hneedle

theorem find?_eq_some_iff : find? nesting needle text = some pos ↔
    ∃ front rest, cutFrom? nesting needle {} text = some (front, rest) ∧ byteSize front = pos := by
  rw [find?, cut?, if_neg (by simpa using hneedle), Option.map_eq_some_iff]
  exact Prod.exists

/-- What is found is an open position of the needle. -/
theorem openAt_of_find? (h : find? nesting needle text = some pos) :
    OpenAt nesting text pos ∧ OccursAt needle text pos := by
  obtain ⟨front, rest, hcut, rfl⟩ := (find?_eq_some_iff hneedle).1 h
  obtain ⟨⟨behind, rfl⟩, hfree⟩ := cutFrom?_eq_some hcut
  obtain ⟨n, needle, rfl⟩ := List.exists_cons_of_ne_nil hneedle
  rw [← cutFrom?_append hcut]
  exact ⟨openAt_iff.2 (hfree n rfl), behind, front, rfl, rfl⟩

/-- If there is an open position of the needle, something is found, and not behind it. -/
theorem exists_find? (hopen : OpenAt nesting text pos) (hoccurs : OccursAt needle text pos) :
    ∃ first ≤ pos, find? nesting needle text = some first := by
  obtain ⟨behind, front, rfl, rfl⟩ := hoccurs
  obtain ⟨n, needle, rfl⟩ := List.exists_cons_of_ne_nil hneedle
  obtain ⟨first, rest, hcut, more, rfl⟩ :=
    exists_cutFrom? (openAt_iff.1 hopen) (List.prefix_append (n :: needle) behind)
  refine ⟨byteSize first, ?_, (find?_eq_some_iff hneedle).2 ⟨first, rest, hcut, rfl⟩⟩
  rw [byteSize_append]
  exact Nat.le_add_right _ _

/-- What is found is the first open position of the needle. -/
theorem isLeast_of_find? (h : find? nesting needle text = some pos) :
    IsLeast {pos | OpenAt nesting text pos ∧ OccursAt needle text pos} pos := by
  refine ⟨openAt_of_find? hneedle h, ?_⟩
  rintro other ⟨hopen, hoccurs⟩
  obtain ⟨first, hle, hfirst⟩ := exists_find? hneedle hopen hoccurs
  cases h.symm.trans hfirst
  exact hle

theorem find?_append_of_some (h : find? nesting needle text = some pos) (more : List Char) :
    find? nesting needle (text ++ more) = some pos := by
  obtain ⟨front, rest, hcut, hpos⟩ := (find?_eq_some_iff hneedle).1 h
  exact (find?_eq_some_iff hneedle).2 ⟨front, rest ++ more, cutFrom?_append_of_some hcut more, hpos⟩

/-- A scan finds the first open position at which the needle stands, and nothing exactly if there is
none. So where brackets count, it does not find the needle earlier, and what it finds stays the same
whatever is written behind the text. -/
theorem finds_first_open (nesting : Bool) (text : List Char) :
    (∀ pos, find? nesting needle text = some pos ↔
      IsLeast {pos | OpenAt nesting text pos ∧ OccursAt needle text pos} pos) ∧
    (find? nesting needle text = none ↔
      ¬∃ pos, OpenAt nesting text pos ∧ OccursAt needle text pos) ∧
    (∀ pos, find? true needle text = some pos →
      ∃ first ≤ pos, find? false needle text = some first) ∧
    ∀ pos more, find? nesting needle text = some pos →
      find? nesting needle (text ++ more) = some pos := by
  refine ⟨fun pos => ⟨isLeast_of_find? hneedle, fun hleast => ?_⟩, ⟨?_, fun hnot => ?_⟩, ?_,
    fun pos more h => find?_append_of_some hneedle h more⟩
  · -- Something is found, and it is a first open position as well.
    obtain ⟨first, -, hfirst⟩ := exists_find? hneedle hleast.1.1 hleast.1.2
    rwa [hleast.unique (isLeast_of_find? hneedle hfirst)]
  · rintro hnone ⟨pos, hopen, hoccurs⟩
    obtain ⟨first, -, hfirst⟩ := exists_find? hneedle hopen hoccurs
    cases hnone.symm.trans hfirst
  · exact Option.eq_none_iff_forall_ne_some.2 fun pos h => hnot ⟨pos, openAt_of_find? hneedle h⟩
  · intro pos h
    obtain ⟨hopen, hoccurs⟩ := openAt_of_find? hneedle h
    exact exists_find? hneedle hopen.ignoreNesting hoccurs

end

/-! ## An escaped quote, and a bracket that nothing opens -/

namespace Mixed

/-- Semicolons behind an escaped quote, between brackets, and behind them. -/
def signs : List Char := "'ä\\'; \"' )(; ); b".toList

/-- A quote that is not closed. -/
def unclosed : List Char := "a = \"b'; c".toList

end Mixed

theorem finds_first_open_mixed :
    IsLeast {pos | OpenAt true Mixed.signs pos ∧ OccursAt [';', ' '] Mixed.signs pos} 15 ∧
      IsLeast {pos | OpenAt false Mixed.signs pos ∧ OccursAt [';', ' '] Mixed.signs pos} 12 ∧
      (¬∃ pos, OpenAt false Mixed.unclosed pos ∧ OccursAt [';', ' '] Mixed.unclosed pos) ∧
      find? true [';', ' '] (Mixed.signs ++ "\"; ".toList) = some 15 := by
  have hneedle : [';', ' '] ≠ [] := by decide
  obtain ⟨hnested, -, -, hlonger⟩ := finds_first_open hneedle true Mixed.signs
  obtain ⟨hplain, -⟩ := finds_first_open hneedle false Mixed.signs
  obtain ⟨-, hnone, -⟩ := finds_first_open hneedle false Mixed.unclosed
  exact ⟨(hnested 15).1 rfl, (hplain 12).1 rfl, hnone.1 rfl, hlonger 15 _ rfl⟩

end RankedRules.Scan
