/-
Wildcard patterns as regular expressions.

A pattern can be written as a regular expression: between the marks for the beginning and the end of
a text a star is `.*`, a question mark is `.`, and any other character stands for itself, behind a
backslash if it would mean something else. In front stand the flags by which a point takes line ends
too, and by which characters are compared up to case. Read by the rules of regular expressions, this
text describes exactly the texts that can be cut along the pattern: no character of the pattern is
taken for an operator, and no part of a text but the whole is asked for.

* `Wildcard.Expression`, `Wildcard.Flags` — regular expressions as far as patterns need them;
* `Wildcard.Spans`, `Wildcard.RowSpans`, `Wildcard.Occurs` — the parts of texts that they describe;
* `Wildcard.readExpression?` — the expression that a text is;
* `Wildcard.Describes` — the texts that it describes;
* `Wildcard.source` — a pattern written as an expression, `Wildcard.readExpression?_source`;
* `Wildcard.describes_source_iff` — it describes the texts that can be cut along the pattern.
-/
import RankedRules.Proofs.Wildcard.Language

namespace RankedRules.Wildcard

/-! ## Regular expressions -/

/-- Equality of characters, exact or up to case. -/
def sameCase (folded : Bool) (a b : Char) : Bool :=
  if folded then Text.sameFolded a b else a == b

/-- The parts of a regular expression: the beginning and the end of the text, any character, a
character, and any number of what another part describes. -/
inductive Expression
  | start
  | stop
  | any
  | char (c : Char)
  | many (inner : Expression)
  deriving DecidableEq

/-- How characters are compared, and whether a point takes line ends. -/
structure Flags where
  folded : Bool := false
  dotAll : Bool := false
  deriving DecidableEq

/-- What a part of a regular expression describes of a text, between what stands before it and what
stands behind it. -/
inductive Spans (flags : Flags) : Expression → List Char → List Char → List Char → Prop
  | start {behind : List Char} : Spans flags .start [] [] behind
  | stop {before : List Char} : Spans flags .stop before [] []
  | any {before behind : List Char} {c : Char} (h : flags.dotAll = true ∨ c ≠ '\n') :
      Spans flags .any before [c] behind
  | char {before behind : List Char} {c d : Char} (h : sameCase flags.folded c d = true) :
      Spans flags (.char c) before [d] behind
  | none {e : Expression} {before behind : List Char} : Spans flags (.many e) before [] behind
  | more {e : Expression} {before part rest behind : List Char}
      (h : Spans flags e before part (rest ++ behind))
      (hrest : Spans flags (.many e) (before ++ part) rest behind) :
      Spans flags (.many e) before (part ++ rest) behind

/-- What several parts describe, one behind the other. -/
inductive RowSpans (flags : Flags) :
    List Expression → List Char → List Char → List Char → Prop
  | nil {before behind : List Char} : RowSpans flags [] before [] behind
  | cons {e : Expression} {row : List Expression} {before part rest behind : List Char}
      (h : Spans flags e before part (rest ++ behind))
      (hrest : RowSpans flags row (before ++ part) rest behind) :
      RowSpans flags (e :: row) before (part ++ rest) behind

/-- Some part of the text is described. -/
def Occurs (flags : Flags) (row : List Expression) (text : List Char) : Prop :=
  ∃ before part behind, text = before ++ (part ++ behind) ∧ RowSpans flags row before part behind

/-- The characters that can mean something else than themselves. -/
def isOperator (c : Char) : Bool :=
  c ∈ ['\\', '.', '+', '*', '?', '(', ')', '|', '[', ']', '{', '}', '^', '$', '#', '&', '-', '~']

/-- The flags in front of an expression, and the text behind them. -/
def readFlags (flags : Flags) : List Char → Flags × List Char
  | '(' :: '?' :: 'i' :: ')' :: rest => readFlags { flags with folded := true } rest
  | '(' :: '?' :: 's' :: ')' :: rest => readFlags { flags with dotAll := true } rest
  | rest => (flags, rest)

/-- The parts of an expression behind those that have been read, the last one first. There are
operators that no part here is written with; a text with such a one is not read. -/
def readRow? : List Expression → List Char → Option (List Expression)
  | done, [] => some done.reverse
  | done, '\\' :: c :: rest => if isOperator c then readRow? (.char c :: done) rest else none
  | e :: done, '*' :: rest => readRow? (.many e :: done) rest
  | done, '.' :: rest => readRow? (.any :: done) rest
  | done, '^' :: rest => readRow? (.start :: done) rest
  | done, '$' :: rest => readRow? (.stop :: done) rest
  | done, c :: rest => if isOperator c then none else readRow? (.char c :: done) rest

/-- The flags and the parts of the expression that a text is. -/
def readExpression? (text : List Char) : Option (Flags × List Expression) :=
  let (flags, rest) := readFlags {} text
  (readRow? [] rest).map fun row => (flags, row)

/-- What the expression that a text is describes: some part of the other text is in it. -/
def Describes (expression text : List Char) : Prop :=
  ∃ flags row, readExpression? expression = some (flags, row) ∧ Occurs flags row text

/-! ## A pattern as a regular expression -/

/-- One character of a pattern as a part of an expression. -/
def ofChar (p : Char) : Expression :=
  if p = '*' then .many .any else if p = '?' then .any else .char p

/-- A pattern as an expression of whole texts. -/
def expressionOf (pattern : List Char) : List Expression :=
  .start :: (pattern.map ofChar ++ [.stop])

/-- A character that stands for itself, behind a backslash if it is an operator. -/
def escaped (c : Char) : List Char :=
  if isOperator c then ['\\', c] else [c]

/-- One character of a pattern in the text of the expression. -/
def sourceOf (p : Char) : List Char :=
  if p = '*' then ['.', '*'] else if p = '?' then ['.'] else escaped p

/-- The text of the expression of a pattern. -/
def source (folded : Bool) (pattern : List Char) : List Char :=
  (if folded then ['(', '?', 'i', ')'] else []) ++ ['(', '?', 's', ')', '^'] ++
    pattern.flatMap sourceOf ++ ['$']

/-! ## Reading the expression -/

section Reading

variable {done : List Expression} {c : Char} {rest : List Char}

theorem readRow?_char (h : isOperator c = false) :
    readRow? done (c :: rest) = readRow? (.char c :: done) rest := by
  rw [readRow?.eq_def]
  -- All characters that are read otherwise are operators.
  split <;> simp_all [isOperator]

theorem readRow?_escaped (c : Char) :
    readRow? done (escaped c ++ rest) = readRow? (.char c :: done) rest := by
  rw [escaped]
  split
  · rename_i h
    rw [List.cons_append, List.cons_append, List.nil_append, readRow?, if_pos h]
  · rename_i h
    exact readRow?_char (Bool.eq_false_iff.2 h)

theorem readRow?_sourceOf (p : Char) :
    readRow? done (sourceOf p ++ rest) = readRow? (ofChar p :: done) rest := by
  rw [sourceOf, ofChar]
  split
  · rfl
  · split
    · rfl
    · exact readRow?_escaped p

theorem readRow?_pattern (pattern : List Char) :
    readRow? done (pattern.flatMap sourceOf ++ rest) =
      readRow? ((pattern.map ofChar).reverse ++ done) rest := by
  induction pattern generalizing done with
  | nil => rfl
  | cons p pattern ih =>
    rw [List.flatMap_cons, List.append_assoc, readRow?_sourceOf, ih]
    simp

end Reading

/-- The text of a pattern is read as its expression, whatever characters are in it. -/
theorem readExpression?_source (folded : Bool) (pattern : List Char) :
    readExpression? (source folded pattern) = some (⟨folded, true⟩, expressionOf pattern) := by
  have hrow : readRow? [] ('^' :: (pattern.flatMap sourceOf ++ ['$'])) =
      some (expressionOf pattern) := by
    rw [readRow?, readRow?_pattern]
    simp [readRow?, expressionOf]
  have hflags : readFlags {} (source folded pattern) =
      (⟨folded, true⟩, '^' :: (pattern.flatMap sourceOf ++ ['$'])) := by
    cases folded <;> rfl
  rw [readExpression?, hflags]
  simp only [hrow, Option.map_some]

/-- Only the point that stands for itself is behind a backslash. -/
example : source true ['a', '*', '.', '?'] = "(?i)(?s)^a.*\\..$".toList := by decide

/-! ## The texts that it describes -/

section Describing

variable {flags : Flags} {before part behind pattern text : List Char}

/-- With the flag a point takes any character, so a star takes any run. -/
theorem spans_many_any (h : flags.dotAll = true) (part before behind : List Char) :
    Spans flags (.many .any) before part behind := by
  induction part generalizing before with
  | nil => exact .none
  | cons c rest ih =>
    have hone : Spans flags .any before [c] (rest ++ behind) := .any (.inl h)
    exact .more hone (ih (before ++ [c]))

/-- The part that is written for a character of the pattern describes the pieces that the character
takes, wherever they stand. -/
theorem spans_ofChar_iff (h : flags.dotAll = true) (p : Char) :
    Spans flags (ofChar p) before part behind ↔ Takes (sameCase flags.folded) p part := by
  rw [ofChar]
  split
  · rename_i hstar
    subst hstar
    exact iff_of_true (spans_many_any h part before behind) (.star part)
  · rename_i hstar
    split
    · rename_i hany
      subst hany
      constructor
      · rintro ⟨⟩
        exact .any _
      · intro htakes
        cases htakes with
        | any c => exact .any (.inl h)
        | one _ hne _ => exact absurd rfl hne
    · rename_i hany
      constructor
      · intro hspans
        cases hspans with
        | char hequal => exact .one hstar hany hequal
      · intro htakes
        cases htakes with
        | star => exact absurd rfl hstar
        | any c => exact absurd rfl hany
        | one _ _ hequal => exact .char hequal

theorem spans_stop_iff : Spans flags .stop before part behind ↔ part = [] ∧ behind = [] := by
  constructor
  · rintro ⟨⟩
    exact ⟨rfl, rfl⟩
  · rintro ⟨rfl, rfl⟩
    exact .stop

/-- What is written for a pattern in front of the end of the text describes all that is left of a
text that can be cut along the pattern. -/
theorem rowSpans_iff (h : flags.dotAll = true) :
    RowSpans flags (pattern.map ofChar ++ [.stop]) before part behind ↔
      behind = [] ∧ Cut (sameCase flags.folded) pattern part := by
  induction pattern generalizing before part with
  | nil =>
    constructor
    · intro hrow
      cases hrow with
      | cons hstop hrest =>
        obtain ⟨rfl, hempty⟩ := spans_stop_iff.1 hstop
        cases hrest
        exact ⟨hempty, .nil⟩
    · rintro ⟨rfl, pieces, rfl, hpieces⟩
      cases hpieces
      exact .cons (spans_stop_iff.2 ⟨rfl, rfl⟩) .nil
  | cons p pattern ih =>
    constructor
    · intro hrow
      cases hrow with
      | cons hspans hrest =>
        -- Only the end of the text can be behind the row, wherever its first part ends.
        obtain ⟨rfl, hcut⟩ := ih.1 hrest
        exact ⟨rfl, .cons ((spans_ofChar_iff h p).1 hspans) hcut⟩
    · rintro ⟨rfl, pieces, rfl, hpieces⟩
      cases hpieces with
      | cons htakes hpieces =>
        refine .cons ((spans_ofChar_iff h p).2 htakes) (ih.2 ⟨rfl, _, rfl, hpieces⟩)

/-- The expression of a pattern describes a part of a text exactly if the whole text can be cut
along the pattern. -/
theorem occurs_iff_cut (h : flags.dotAll = true) :
    Occurs flags (expressionOf pattern) text ↔ Cut (sameCase flags.folded) pattern text := by
  constructor
  · rintro ⟨before, part, behind, rfl, hrow⟩
    cases hrow with
    | cons hstart hrest =>
      -- The part that is described begins where the text does.
      cases hstart
      obtain ⟨rfl, hcut⟩ := (rowSpans_iff h).1 hrest
      simpa using hcut
  · intro hcut
    refine ⟨[], text, [], by simp, ?_⟩
    exact .cons .start ((rowSpans_iff h).2 ⟨rfl, hcut⟩)

end Describing

/-- Written as a regular expression, a pattern describes the texts that can be cut along it. -/
theorem describes_source_iff {folded : Bool} {pattern text : List Char} :
    Describes (source folded pattern) text ↔ Cut (sameCase folded) pattern text := by
  constructor
  · rintro ⟨flags, row, hread, hoccurs⟩
    rw [readExpression?_source] at hread
    cases hread
    exact (occurs_iff_cut rfl).1 hoccurs
  · intro hcut
    exact ⟨_, _, readExpression?_source folded pattern, (occurs_iff_cut rfl).2 hcut⟩

end RankedRules.Wildcard
