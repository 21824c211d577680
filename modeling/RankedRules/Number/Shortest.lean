/-
The text of a double: the fewest digits that read back as the same number.

For one digit, two digits and so on, the two decimals on both sides of the number are tried. The
first count at which one of them reads back wins, and of two that do the nearer one. Where both are
as near, the format decides. Reading back is decided by the reader itself.

* `Tie` — which of two equally near decimals is taken;
* `Double.grid` — the number measured in units of a power of ten;
* `Double.shortest` — the decimal with the fewest digits;
* `Decimal.positional`, `Decimal.scientific` — the two ways of writing it;
* `Double.text` — positional from `0.00001` up to sixteen digits before the point.
-/
import RankedRules.Number.Decimal

namespace RankedRules

/-- Which of two equally near decimals is taken: the one with the even last digit, or the one
farther from zero. -/
inductive Tie
  | even
  | away

/-- The natural number nearest to `num / den`. -/
def Tie.round : Tie → Nat → Nat → Nat
  | .even, num, den => Double.roundHalfEven num den
  | .away, num, den => if 2 * (num % den) < den then num / den else num / den + 1

namespace Double

/-- The magnitude as a fraction of natural numbers. -/
def fraction (x : Double) : Nat × Nat :=
  (units x.magnitude, unitsOfOne)

/-- The power of ten of the first digit of a positive magnitude. -/
def leadingPower (x : Double) : Int :=
  let (num, den) := x.fraction
  ((Decimal.digitChars (num * Nat.pow 10 330 / den)).length : Int) - 331

/-- The magnitude as a fraction of `10 ^ power`. -/
def grid (x : Double) (power : Int) : Nat × Nat :=
  (x.fraction.1 * Nat.pow 10 (-power).toNat, x.fraction.2 * Nat.pow 10 power.toNat)

/-- The decimals next to the number on the grid of a power of ten, the nearer one first. -/
def neighbours (tie : Tie) (x : Double) (power : Int) : List Decimal :=
  let (num, den) := x.grid power
  let near := tie.round num den
  let far := if near = num / den then near + 1 else num / den
  [⟨x.negative, near, power⟩, ⟨x.negative, far, power⟩]

/-- The decimal with all digits of the number. -/
def exact (x : Double) : Decimal :=
  ⟨x.negative, units x.magnitude * Nat.pow 5 1074, -1074⟩

/-- The counts of digits that are tried. Seventeen are enough for every double. -/
def digitCounts : List Nat :=
  (List.range 17).map (· + 1)

/-- The decimal with the fewest digits that reads back, of two such the nearer one. -/
def shortest (tie : Tie) (x : Double) : Decimal :=
  if x.magnitude = 0 then
    ⟨x.negative, 0, 0⟩
  else
    let tried := digitCounts.findSome? fun (count : Nat) =>
      (x.neighbours tie (x.leadingPower - count + 1)).find? fun y => y.toDouble? == some x
    tried.getD x.exact

end Double

namespace Decimal

/-- The same number without zeros at the end of its digits, as far as `fuel` zeros. -/
def stripZeros : Nat → Decimal → Decimal
  | 0, x => x
  | fuel + 1, x =>
    if x.digits ≠ 0 ∧ x.digits % 10 = 0 then
      stripZeros fuel ⟨x.negative, x.digits / 10, x.exponent + 1⟩
    else
      x

/-- The minus sign of a negative number. -/
def signChars (x : Decimal) : List Char :=
  if x.negative then ['-'] else []

/-- All digits at their places, with a point that has a digit on both sides. -/
def positional (x : Decimal) : List Char :=
  let digits := digitChars x.digits
  let zeros (count : Int) := List.replicate count.toNat '0'
  let point : Int := digits.length + x.exponent
  x.signChars ++
    if 0 ≤ x.exponent then
      digits ++ zeros x.exponent ++ ['.', '0']
    else if 0 < point then
      digits.take point.toNat ++ '.' :: digits.drop point.toNat
    else
      '0' :: '.' :: zeros (-point) ++ digits

/-- One digit, the others behind a point, and the power of ten with its sign. -/
def scientific (x : Decimal) : List Char :=
  let digits := digitChars x.digits
  let power : Int := digits.length - 1 + x.exponent
  let mantissa :=
    match digits with
    | first :: next :: rest => first :: '.' :: next :: rest
    | digits => digits
  x.signChars ++ mantissa ++ 'e' :: (if power < 0 then '-' else '+') :: digitChars power.natAbs

end Decimal

namespace Double

/-- The shortest decimal, in positional notation from `0.00001` up to sixteen digits before the
point, and in scientific notation outside this range. A tie goes to the even digit. -/
def text (x : Double) : List Char :=
  let shortest := (x.shortest .even).stripZeros 17
  if -5 < shortest.width ∧ shortest.width ≤ 16 then
    shortest.positional
  else
    shortest.scientific

end Double

end RankedRules
