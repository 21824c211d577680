/-
Wildcard patterns.

In a pattern a star stands for any run of characters and a question mark for any one character;
all others stand for themselves, or for what is equal to them under a given comparison. A pattern
that is too large has no texts.

Whether a text has the form of a pattern is decided for all ends of the text at once, from the
last character of the pattern to the first, so the work is the product of the two lengths.

* `Wildcard.Form` — the language of a pattern: how a text is cut along it;
* `Wildcard.row` — for every end of a text, whether it has the form of a pattern;
* `Wildcard.accepts`, `Wildcard.acceptsFolded` — the decision for a text, exact and up to case;
* `Wildcard.row_cons`, `Wildcard.decides_star_cons`, `Wildcard.decides_one_cons` — one step of the
  decision, on the first character of the text.
-/
import RankedRules.Wildcard.Size

namespace RankedRules.Wildcard

/-- A text has the form of a pattern if it can be cut into one piece per character of the pattern:
any run for a star, one character for a question mark, an equal character for any other. -/
inductive Form (same : Char → Char → Bool) : List Char → List Char → Prop
  | nil : Form same [] []
  | star {pattern rest : List Char} (run : List Char) :
      Form same pattern rest → Form same ('*' :: pattern) (run ++ rest)
  | any {pattern rest : List Char} (c : Char) :
      Form same pattern rest → Form same ('?' :: pattern) (c :: rest)
  | one {p c : Char} {pattern rest : List Char} (star : p ≠ '*') (equal : same p c = true) :
      Form same pattern rest → Form same (p :: pattern) (c :: rest)

/-- The row of a pattern behind a star: an end fits if it or a shorter one fits the pattern. -/
def starRow : List Bool → List Bool
  | [] => []
  | fits :: row =>
    let shorter := starRow row
    (fits || shorter.headD false) :: shorter

/-- The row of a pattern behind a test of one character. -/
def oneRow (test : Char → Bool) : List Char → List Bool → List Bool
  | c :: text, _ :: row => (test c && row.headD false) :: oneRow test text row
  | _, _ => [false]

/-- For every end of the text, from the whole text to the empty one, whether it has the form of
the pattern. -/
def row (same : Char → Char → Bool) : List Char → List Char → List Bool
  | [], text => text.map (fun _ => false) ++ [true]
  | p :: pattern, text =>
    if p = '*' then starRow (row same pattern text)
    else oneRow (fun c => p = '?' || same p c) text (row same pattern text)

/-- Whether the whole text has the form of the pattern. -/
def decides (same : Char → Char → Bool) (pattern text : List Char) : Bool :=
  (row same pattern text).headD false

/-- Whether the whole text has the form of the pattern, character by character, and the pattern is
not too large. -/
def accepts (pattern text : String) : Bool :=
  isWithinLimit false pattern.toList && decides (· == ·) pattern.toList text.toList

/-- Whether the whole text has the form of the pattern up to case, and the pattern is not too
large. -/
def acceptsFolded (pattern text : String) : Bool :=
  isWithinLimit true pattern.toList && decides Text.sameFolded pattern.toList text.toList

/-! ## The row of a longer text begins with one more entry -/

/-- Behind its first entry, the row of a text is the row of the text without its first
character. -/
theorem row_cons (same : Char → Char → Bool) (pattern : List Char) (c : Char) (text : List Char) :
    row same pattern (c :: text) = decides same pattern (c :: text) :: row same pattern text := by
  induction pattern with
  | nil => simp [row, decides]
  | cons p pattern ih =>
    rw [decides, row, row, ih]
    split
    · simp [starRow]
    · simp [oneRow]

theorem decides_nil_cons (same : Char → Char → Bool) (c : Char) (text : List Char) :
    decides same [] (c :: text) = false := by
  simp [decides, row]

/-- A star takes one more character, or none. -/
theorem decides_star_cons (same : Char → Char → Bool) (pattern : List Char) (c : Char)
    (text : List Char) :
    decides same ('*' :: pattern) (c :: text) =
      (decides same pattern (c :: text) || decides same ('*' :: pattern) text) := by
  rw [decides, row, if_pos rfl, row_cons]
  simp [starRow, decides, row]

theorem decides_star_nil (same : Char → Char → Bool) (pattern : List Char) :
    decides same ('*' :: pattern) [] = decides same pattern [] := by
  have length_one : ∀ q, (row same q []).length = 1 := by
    intro q
    induction q with
    | nil => rfl
    | cons p q ih =>
      obtain ⟨b, h⟩ := List.length_eq_one_iff.1 ih
      rw [row]
      split
      · simp [h, starRow]
      · simp [oneRow]
  obtain ⟨b, h⟩ := List.length_eq_one_iff.1 (length_one pattern)
  simp [decides, row, h, starRow]

theorem decides_one_cons (same : Char → Char → Bool) {p : Char} (hp : p ≠ '*')
    (pattern : List Char) (c : Char) (text : List Char) :
    decides same (p :: pattern) (c :: text) =
      ((p = '?' || same p c) && decides same pattern text) := by
  rw [decides, row, if_neg hp, row_cons]
  simp [oneRow, decides]

theorem decides_one_nil (same : Char → Char → Bool) {p : Char} (hp : p ≠ '*')
    (pattern : List Char) : decides same (p :: pattern) [] = false := by
  simp [decides, row, if_neg hp, oneRow]

end RankedRules.Wildcard
