/-
The size of a wildcard pattern.

Texts are read along a pattern byte by byte in UTF-8, from their beginning or from their end, and
a pattern has a size in either direction: what a table of the states of such a reader takes. A
state takes 32 bytes, a labelled arrow from a state that has several 8 bytes, and a branch without
a label 4 bytes. Read forwards, equal continuations share their states; read backwards, only equal
beginnings do. A pattern of more than ten mebibytes in one of the directions is not read at all.

* `Wildcard.utf8` — the bytes of a character;
* `Wildcard.backwardSize`, `Wildcard.forwardSize` — the size of a choice between byte sequences;
* `Wildcard.Direction` — the sizes in one direction, `Direction.size` that of a whole pattern;
* `Wildcard.isWithinLimit` — whether a pattern is read.
-/
import RankedRules.Text.CaseFold

namespace RankedRules.Wildcard

/-- The bytes of a code point in UTF-8. -/
def utf8 (code : Nat) : List Nat :=
  let next (place : Nat) := 0x80 + code / place % 64
  if code < 0x80 then [code]
  else if code < 0x800 then [0xc0 + code / 64, next 1]
  else if code < 0x10000 then [0xe0 + code / 4096, next 64, next 1]
  else [0xf0 + code / 262144, next 4096, next 64, next 1]

/-- The least and the greatest of some bytes. -/
abbrev ByteRange := Nat × Nat

/-- The byte sequences of all characters. -/
def anyBytes : List (List ByteRange) :=
  let next : ByteRange := (0x80, 0xbf)
  [[(0, 0x7f)],
    [(0xc2, 0xdf), next],
    [(0xe0, 0xe0), (0xa0, 0xbf), next],
    [(0xe1, 0xec), next, next],
    [(0xed, 0xed), (0x80, 0x9f), next],
    [(0xee, 0xef), next, next],
    [(0xf0, 0xf0), (0x90, 0xbf), next, next],
    [(0xf1, 0xf3), next, next, next],
    [(0xf4, 0xf4), (0x80, 0x8f), next, next]]

/-- Increasing code points as runs whose byte sequences differ in the last byte only. -/
def runs : List Nat → List (Nat × Nat)
  | [] => []
  | code :: rest =>
    match runs rest with
    | [] => [(code, code)]
    | (first, last) :: others =>
      if code + 1 = first ∧ code / 64 = first / 64 then (code, last) :: others
      else (code, code) :: (first, last) :: others

/-- The byte sequences of increasing code points. -/
def bytesOf (codes : List Nat) : List (List ByteRange) :=
  (runs codes).map fun (first, last) => (utf8 first).zip (utf8 last)

/-- The beginnings of a byte sequence that leave something of it. -/
def fronts (bytes : List ByteRange) : List (List ByteRange) :=
  (List.range bytes.length).map bytes.take

/-- What follows a beginning in those byte sequences that have it. -/
def continuations (choice : List (List ByteRange)) (front : List ByteRange) :
    List (List ByteRange) :=
  (choice.filter fun bytes => front.isPrefixOf bytes).map fun bytes => bytes.drop front.length

/-- The size of a choice that is read backwards: two states, a branch to every sequence, and a
state for every byte, which sequences share as long as all bytes before it are the same. -/
def backwardSize (choice : List (List ByteRange)) : Nat :=
  let states := (choice.flatMap fun bytes => (fronts bytes).zip bytes).eraseDups
  64 + 4 * choice.length + 32 * states.length

/-- The size of a choice that is read forwards: a state for its end, and one for every way to go on
with an arrow for every next byte. -/
def forwardSize (choice : List (List ByteRange)) : Nat :=
  let ways := ((choice.flatMap fronts).map (continuations choice)).eraseDups
  ways.foldl (fun size way => size + 32 + 8 * (way.map List.head?).eraseDups.length) 32

/-- The sizes in one direction: of the states around a pattern, of any character, and of a choice
between byte sequences. -/
structure Direction where
  around : Nat
  any : Nat
  choice : List (List ByteRange) → Nat

/-- From the end of a text, between a state in front, two ends and a goal. -/
def backward : Direction := ⟨128, backwardSize anyBytes, backwardSize⟩

/-- From the beginning of a text, with two more states that keep its ends. -/
def forward : Direction := ⟨192, forwardSize anyBytes, forwardSize⟩

/-- The size of one character of a pattern, up to case or exact. A star goes back to its beginning
by a state with two branches. -/
def Direction.charSize (direction : Direction) (folded : Bool) (p : Char) : Nat :=
  if p = '*' then direction.any + 40
  else if p = '?' then direction.any
  else
    match if folded then Text.sameFoldedCodes p else [p.toNat] with
    | [code] => 32 * (utf8 code).length
    | codes =>
      if codes.all (· < 0x80) then 64 + 8 * codes.length else direction.choice (bytesOf codes)

/-- The size of a pattern. -/
def Direction.size (direction : Direction) (folded : Bool) (pattern : List Char) : Nat :=
  pattern.foldl (fun size p => size + direction.charSize folded p) direction.around

/-- The size of the largest patterns that are read: ten mebibytes. -/
def sizeLimit : Nat := 10485760

/-- Whether a pattern is read, in both directions. -/
def isWithinLimit (folded : Bool) (pattern : List Char) : Bool :=
  backward.size folded pattern ≤ sizeLimit && forward.size folded pattern ≤ sizeLimit

end RankedRules.Wildcard
