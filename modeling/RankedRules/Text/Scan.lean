/-
The first occurrence of a text outside quotes and brackets.

A text is read once from left to right. A double or single quote opens a quoted part, which the
same character closes; inside, a backslash keeps the next character from closing it. A scan that
respects nesting also counts the brackets that are open, surplus closing ones being ignored. An
occurrence counts only if it begins outside all of these.

* `Scan.State`, `Scan.State.next` — what has been opened so far, and one more character;
* `Scan.isFree` — an occurrence may begin at a character;
* `Scan.cut?` — the text in front of the first occurrence, and the rest from there on;
* `Scan.find?` — the position of the first occurrence;
* `Scan.cut?_append` — the two parts are the text.
-/
import RankedRules.Text.Size

namespace RankedRules.Scan

/-- Which quote is open, whether a backslash stands before the next character, and how many
brackets are open. -/
structure State where
  quote : Option Char := none
  escaped : Bool := false
  depth : Nat := 0
  deriving DecidableEq

/-- The two characters that open and close quoted parts. -/
def isQuote (c : Char) : Bool :=
  c = '"' || c = '\''

def isOpening (c : Char) : Bool :=
  c = '\x7b' || c = '('

def isClosing (c : Char) : Bool :=
  c = '\x7d' || c = ')'

/-- The state after one more character. Brackets count only if `nesting` is respected. -/
def State.next (nesting : Bool) (s : State) (c : Char) : State :=
  match s.quote with
  | some quote =>
    if s.escaped then { s with escaped := false }
    else if c = '\\' then { s with escaped := true }
    else if c = quote then { s with quote := none }
    else s
  | none =>
    if isQuote c then { s with quote := some c }
    else if nesting && isOpening c then { s with depth := s.depth + 1 }
    else if nesting && isClosing c then { s with depth := s.depth - 1 }
    else s

/-- An occurrence may begin at the character `c`: nothing is open, and `c` itself neither opens
nor closes anything. -/
def isFree (nesting : Bool) (s : State) (c : Char) : Bool :=
  s.quote.isNone && s.depth == 0 && !isQuote c && !(nesting && (isOpening c || isClosing c))

/-- The text in front of the first occurrence of `needle` that begins at a free character, and
the rest that begins with it. -/
def cutFrom? (nesting : Bool) (needle : List Char) : State → List Char →
    Option (List Char × List Char)
  | _, [] => none
  | s, c :: rest =>
    if isFree nesting s c && needle.isPrefixOf (c :: rest) then
      some ([], c :: rest)
    else
      (cutFrom? nesting needle (s.next nesting c) rest).map fun (front, rest) => (c :: front, rest)

/-- The text in front of the first free occurrence of `needle`, and the rest from there on. The
empty needle occurs at the start. -/
def cut? (nesting : Bool) (needle text : List Char) : Option (List Char × List Char) :=
  if needle.isEmpty then some ([], text) else cutFrom? nesting needle {} text

/-- The position of the first free occurrence, in bytes. -/
def find? (nesting : Bool) (needle text : List Char) : Option Nat :=
  (cut? nesting needle text).map fun (front, _) => Text.byteSize front

theorem cutFrom?_append {nesting : Bool} {needle : List Char} {s : State}
    {text front rest : List Char} (h : cutFrom? nesting needle s text = some (front, rest)) :
    front ++ rest = text := by
  induction text generalizing s front with
  | nil => cases h
  | cons c text ih =>
    rw [cutFrom?] at h
    split at h
    · cases h
      rfl
    · obtain ⟨⟨front', rest'⟩, hcut, heq⟩ := Option.map_eq_some_iff.1 h
      cases heq
      rw [List.cons_append, ih hcut]

/-- What is cut apart is the text. -/
theorem cut?_append {nesting : Bool} {needle text front rest : List Char}
    (h : cut? nesting needle text = some (front, rest)) : front ++ rest = text := by
  rw [cut?] at h
  split at h
  · cases h
    rfl
  · exact cutFrom?_append h

end RankedRules.Scan
