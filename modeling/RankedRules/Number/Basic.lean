/-
Numbers of the rule language.

A number is an integer or a double, and the two kinds are kept apart: `5` and `5.0` are written
differently. When two numbers are compared with each other, both are first rounded to doubles.

* `Number` — the type;
* `Number.ofChars?` — the number that a whole text is, an integer if it can be one;
* `Number.text` — how a number is written;
* `Number.rank` — the place of a number in the order of the doubles, on which comparison rests;
* `Number.same` — equality of numbers of one kind.
-/
import RankedRules.Number.Shortest

namespace RankedRules

/-- An integer or a double. -/
inductive Number
  | integer (value : Int)
  | double (value : Double)
  deriving DecidableEq

namespace Number

/-- The integers of 64 bits with a sign. -/
def isSigned64 (n : Int) : Bool :=
  -0x8000000000000000 ≤ n && n < 0x8000000000000000

/-- The number that the whole text is: a signed 64-bit integer, or else a finite double. -/
def ofChars? (cs : List Char) : Option Number :=
  match (Decimal.integer? cs).filter isSigned64 with
  | some n => some (.integer n)
  | none => ((Decimal.ofChars? cs).bind Decimal.toDouble?).map .double

/-- An integer in decimal digits. -/
def integerChars (n : Int) : List Char :=
  (if n < 0 then ['-'] else []) ++ Decimal.digitChars n.natAbs

/-- A number in digits; a double always shows a point or an exponent. -/
def chars : Number → List Char
  | .integer n => integerChars n
  | .double x => x.text

/-- A number in digits, as a string. -/
def text (n : Number) : String :=
  String.ofList n.chars

/-- The place of the nearest double in the order of the doubles. -/
def rank : Number → Int
  | .integer n =>
    if n < 0 then -(Double.nearest n.natAbs 1 : Int) else Double.nearest n.natAbs 1
  | .double x => x.rank

/-- Equality of numbers of one kind; an integer and a double are never the same. -/
def same : Number → Number → Bool
  | .integer m, .integer n => m == n
  | .double x, .double y => x.same y
  | _, _ => false

theorem same_refl (n : Number) : n.same n = true := by
  cases n <;> simp [same, Double.same_refl]

end Number

end RankedRules
