/-
Decimal numerals: reading them, and the double they stand for.

A numeral is an optional sign, digits with an optional point before, between or after them, and
an optional exponent. Its value is kept as digits times a power of ten until it is rounded once.

* `Decimal` — a signed `digits * 10 ^ exponent`;
* `Decimal.ofChars?` — the numeral that is the whole text;
* `Decimal.toDouble?` — the nearest double, if the numeral is not too large;
* `Decimal.integer?` — the value of a numeral that consists of a sign and digits only.
-/
import RankedRules.Number.Double

namespace RankedRules

/-- The number `digits * 10 ^ exponent` with a sign. -/
structure Decimal where
  negative : Bool
  digits : Nat
  exponent : Int
  deriving DecidableEq

namespace Decimal

/-- The value of a digit, and zero for any other character below it. -/
def digitValue (c : Char) : Nat :=
  c.toNat - '0'.toNat

/-- The number that a sequence of digits denotes. -/
def digitsValue (cs : List Char) : Nat :=
  cs.foldl (fun value c => 10 * value + digitValue c) 0

/-- The number in decimal digits, without leading zeros. -/
def digitChars (n : Nat) : List Char :=
  Nat.toDigits 10 n

/-- Whether a text begins with a minus sign, and what follows its sign if it has one. -/
def splitSign : List Char → Bool × List Char
  | '-' :: rest => (true, rest)
  | '+' :: rest => (false, rest)
  | cs => (false, cs)

/-- A sign or none, and at least one digit. -/
def integer? (cs : List Char) : Option Int :=
  let (negative, digits) := splitSign cs
  if digits.isEmpty || !digits.all Char.isDigit then
    none
  else
    some (if negative then -(digitsValue digits : Int) else digitsValue digits)

/-- The exponent that ends a numeral: nothing, or the letter e and an integer. -/
def exponent? : List Char → Option Int
  | [] => some 0
  | c :: rest => if c = 'e' ∨ c = 'E' then integer? rest else none

/-- What follows a point, if there is one: its digits, and the rest after them. -/
def splitFraction : List Char → List Char × List Char
  | '.' :: rest => (rest.takeWhile Char.isDigit, rest.dropWhile Char.isDigit)
  | cs => ([], cs)

/-- The numeral that the whole text is. -/
def ofChars? (cs : List Char) : Option Decimal :=
  let (negative, unsigned) := splitSign cs
  let whole := unsigned.takeWhile Char.isDigit
  let (fraction, rest) := splitFraction (unsigned.dropWhile Char.isDigit)
  if whole.isEmpty && fraction.isEmpty then
    none
  else
    (exponent? rest).map fun exponent =>
      ⟨negative, digitsValue (whole ++ fraction), exponent - fraction.length⟩

/-- The magnitude as a fraction of natural numbers. -/
def fraction (x : Decimal) : Nat × Nat :=
  (x.digits * Nat.pow 10 x.exponent.toNat, Nat.pow 10 (-x.exponent).toNat)

/-- The place of the first digit: the magnitude is below ten to this power. -/
def width (x : Decimal) : Int :=
  (digitChars x.digits).length + x.exponent

/-- The double nearest to the numeral. Numerals that are out of range by far are told from their
width, so that no power is computed for them. -/
def toDouble? (x : Decimal) : Option Double :=
  if x.digits = 0 ∨ x.width < -400 then
    some ⟨x.negative, 0, by decide⟩
  else if 400 < x.width then
    none
  else
    Double.ofFraction? x.negative x.fraction.1 x.fraction.2

end Decimal

end RankedRules
