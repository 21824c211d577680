/-
Finite binary64 numbers, with exact rounding.

A double is a sign and a magnitude. The magnitudes are numbered from zero upwards: number `m`
stands for `Double.units m` times the smallest positive double, which is `2 ^ -1074`, and the
numbering is the one of the usual 63 bits below the sign bit. Rounding is done on fractions of
natural numbers, so nothing here depends on the arithmetic of the machine.

* `Double` — the type; there are no infinities and no NaN;
* `Double.binade` — the count of magnitudes with one spacing;
* `Double.units` — the magnitude as a multiple of the smallest one;
* `Double.nearest` — the number of the magnitude nearest to a fraction, ties to even;
* `Double.ofFraction?` — the double nearest to a fraction, if it is in range;
* `Double.rank` — the place of a double in the order of all doubles; both zeros share one.
-/
namespace RankedRules

/-- How many magnitudes lie between a power of two and the next: `2 ^ 52`. -/
def Double.binade : Nat := 0x10000000000000

/-- A finite binary64 number. -/
structure Double where
  negative : Bool
  magnitude : Nat
  inRange : magnitude < 2047 * Double.binade
  deriving DecidableEq

namespace Double

/-- How far the spacing at a magnitude is above the finest spacing, in powers of two. -/
def coarseness (magnitude : Nat) : Nat :=
  magnitude / binade - 1

/-- The magnitude as a multiple of `2 ^ -1074`. -/
def units (magnitude : Nat) : Nat :=
  (magnitude - coarseness magnitude * binade) * Nat.pow 2 (coarseness magnitude)

/-- The number one as a multiple of `2 ^ -1074`. -/
def unitsOfOne : Nat := Nat.pow 2 1074

/-- The natural number nearest to `num / den`, the even one of two. -/
def roundHalfEven (num den : Nat) : Nat :=
  let floor := num / den
  let twice := 2 * (num % den)
  if twice < den then floor
  else if den < twice then floor + 1
  else floor + floor % 2

/-- The number of the magnitude nearest to `num / den`, with no upper limit. Up to `2 ^ 53` units
the spacing is one unit, and it doubles with every further power of two; a magnitude that is
rounded up to a power of two is the first of the next spacing, which the numbering continues. -/
def nearest (num den : Nat) : Nat :=
  let scaled := num * unitsOfOne
  let spacing := Nat.log2 (scaled / den) - 52
  spacing * binade + roundHalfEven scaled (den * Nat.pow 2 spacing)

/-- The double nearest to `num / den`, unless it is too large. -/
def ofFraction? (negative : Bool) (num den : Nat) : Option Double :=
  if h : nearest num den < 2047 * binade then
    some ⟨negative, nearest num den, h⟩
  else
    none

/-- The place of a double in the order of the doubles, zero being in the middle. -/
def rank (x : Double) : Int :=
  if x.negative then -(x.magnitude : Int) else x.magnitude

/-- Equality as numbers, under which the two zeros are equal. -/
def same (x y : Double) : Bool :=
  x.rank == y.rank

theorem same_refl (x : Double) : x.same x = true := by
  simp [same]

end Double

end RankedRules
