/-
Rounding to doubles is exact on doubles, and it depends on the fraction only as a number.

* `Double.nearest_mul_left` — a fraction can be expanded without changing the nearest magnitude;
* `Double.nearest_units` — a magnitude is the one nearest to itself;
* `Decimal.toDouble?_shift` — zeros at the end of the digits can be moved into the exponent;
* `Double.shortest_toDouble?` — the shortest decimal of a double stands for that double.
-/
import RankedRules.Number.Shortest

namespace RankedRules

namespace Double

theorem binade_eq : binade = 4503599627370496 := rfl

theorem unitsOfOne_pos : 0 < unitsOfOne := by
  decide +kernel

theorem roundHalfEven_mul_left {k : Nat} (hk : 0 < k) (num den : Nat) :
    roundHalfEven (k * num) (k * den) = roundHalfEven num den := by
  have hfloor : k * num / (k * den) = num / den := Nat.mul_div_mul_left num den hk
  have hrest : 2 * (k * num % (k * den)) = k * (2 * (num % den)) := by
    rw [Nat.mul_mod_mul_left, Nat.mul_left_comm]
  simp only [roundHalfEven, hfloor, hrest, Nat.mul_lt_mul_left hk]

/-- Nothing is rounded where the fraction is a natural number. -/
theorem roundHalfEven_mul_self {den : Nat} (hden : 0 < den) (n : Nat) :
    roundHalfEven (n * den) den = n := by
  simp [roundHalfEven, Nat.mul_div_cancel n hden, hden]

theorem nearest_mul_left {k : Nat} (hk : 0 < k) (num den : Nat) :
    nearest (k * num) (k * den) = nearest num den := by
  have hfloor : k * (num * unitsOfOne) / (k * den) = num * unitsOfOne / den :=
    Nat.mul_div_mul_left _ _ hk
  simp only [nearest, Nat.mul_assoc, hfloor, roundHalfEven_mul_left hk]

/-- The magnitudes between two powers of two count the units from the lower one on. -/
theorem significand_bounds {m : Nat} (h : coarseness m ≠ 0) :
    binade ≤ m - coarseness m * binade ∧ m - coarseness m * binade < 2 * binade := by
  have hdiv := Nat.div_add_mod m binade
  have hmod : m % binade < binade := Nat.mod_lt m (by decide)
  have hcoarse : m / binade = coarseness m + 1 := by
    rw [coarseness] at h ⊢
    omega
  rw [hcoarse, Nat.mul_succ, Nat.mul_comm binade] at hdiv
  omega

/-- The distance of the magnitudes around a magnitude, as rounding finds it. -/
theorem log2_units (m : Nat) : Nat.log2 (units m) - 52 = coarseness m := by
  by_cases hc : coarseness m = 0
  · have hunits : units m = m := by simp [units, hc]
    have hm : m < 2 ^ 53 := by
      rw [coarseness, binade_eq] at hc
      omega
    rw [hc, hunits]
    by_cases hzero : m = 0
    · subst hzero
      simp
    · have hlog := (Nat.log2_lt hzero).2 hm
      omega
  · obtain ⟨hlower, hupper⟩ := significand_bounds hc
    have hpos : 0 < units m := Nat.mul_pos (Nat.lt_of_lt_of_le (by decide) hlower)
      (Nat.pow_pos (by decide))
    have hlog : Nat.log2 (units m) = 52 + coarseness m := by
      rw [Nat.log2_eq_iff (Nat.ne_of_gt hpos), units]
      rw [binade_eq] at hlower hupper ⊢
      constructor
      · rw [Nat.pow_add]
        exact Nat.mul_le_mul_right _ hlower
      · rw [show 52 + coarseness m + 1 = 53 + coarseness m by omega, Nat.pow_add]
        exact Nat.mul_lt_mul_of_pos_right hupper (Nat.pow_pos (by decide))
    omega

/-- A magnitude is the one nearest to itself. -/
theorem nearest_units (m : Nat) : nearest (units m) unitsOfOne = m := by
  have hfloor : units m * unitsOfOne / unitsOfOne = units m :=
    Nat.mul_div_cancel _ unitsOfOne_pos
  have hpow : 0 < unitsOfOne * Nat.pow 2 (coarseness m) :=
    Nat.mul_pos unitsOfOne_pos (Nat.pow_pos (by decide))
  have hwhole : coarseness m * binade ≤ m := by
    have hdiv := Nat.div_mul_le_self m binade
    exact Nat.le_trans (Nat.mul_le_mul_right binade (Nat.sub_le _ _)) hdiv
  have hscaled : units m * unitsOfOne =
      (m - coarseness m * binade) * (unitsOfOne * Nat.pow 2 (coarseness m)) := by
    rw [units, Nat.mul_assoc, Nat.mul_comm (Nat.pow 2 _)]
  simp only [nearest, hfloor, log2_units]
  rw [hscaled, roundHalfEven_mul_self hpow]
  omega

end Double

namespace Decimal

/-! ## The same number with other digits -/

theorem digitChars_ten_mul {n : Nat} (h : 0 < n) : digitChars (10 * n) = digitChars n ++ ['0'] :=
  (Nat.toDigits_append_toDigits (d := 0) (by decide) h (by decide)).symm

/-- Numerals of one width whose fractions are one number stand for the same double. -/
theorem toDouble?_congr {x y : Decimal} (hsign : x.negative = y.negative)
    (hzero : x.digits = 0 ↔ y.digits = 0) (hwidth : x.width = y.width)
    (hnearest : Double.nearest x.fraction.1 x.fraction.2 =
      Double.nearest y.fraction.1 y.fraction.2) : x.toDouble? = y.toDouble? := by
  simp only [toDouble?, Double.ofFraction?, hsign, hzero, hwidth, hnearest]

/-- A zero at the end of the digits can be moved into the exponent. -/
theorem toDouble?_ten_mul (negative : Bool) (digits : Nat) (exponent : Int) :
    toDouble? ⟨negative, 10 * digits, exponent⟩ = toDouble? ⟨negative, digits, exponent + 1⟩ := by
  by_cases hdigits : digits = 0
  · simp [toDouble?, hdigits]
  refine toDouble?_congr rfl ?_ ?_ ?_
  · show 10 * digits = 0 ↔ digits = 0
    omega
  · simp only [width, digitChars_ten_mul (Nat.pos_of_ne_zero hdigits), List.length_append,
      List.length_singleton]
    omega
  · simp only [fraction]
    by_cases hexponent : 0 ≤ exponent
    · -- The factor is in the numerator on both sides.
      have hnum : (exponent + 1).toNat = exponent.toNat + 1 := by omega
      have hden : (-(exponent + 1)).toNat = 0 ∧ (-exponent).toNat = 0 := by omega
      have hpow : 10 * digits * Nat.pow 10 exponent.toNat =
          digits * Nat.pow 10 (exponent.toNat + 1) := by
        show _ = digits * (Nat.pow 10 exponent.toNat * 10)
        rw [Nat.mul_comm 10 digits, Nat.mul_assoc, Nat.mul_comm 10]
      rw [hnum, hden.1, hden.2, hpow]
    · -- On the right side it is missing in the denominator.
      have hnum : exponent.toNat = 0 ∧ (exponent + 1).toNat = 0 := by omega
      have hden : (-exponent).toNat = (-(exponent + 1)).toNat + 1 := by omega
      have hpow : Nat.pow 10 ((-(exponent + 1)).toNat + 1) =
          10 * Nat.pow 10 (-(exponent + 1)).toNat := Nat.mul_comm _ _
      rw [hnum.1, hnum.2, hden, hpow, Nat.mul_assoc 10 digits]
      exact Double.nearest_mul_left (by decide) _ _

/-- Zeros at the end of the digits can be moved into the exponent. -/
theorem toDouble?_shift (negative : Bool) (digits count : Nat) (exponent : Int) :
    toDouble? ⟨negative, digits * Nat.pow 10 count, exponent⟩ =
      toDouble? ⟨negative, digits, exponent + count⟩ := by
  induction count generalizing exponent with
  | zero => simp
  | succ count ih =>
    have hpow : digits * Nat.pow 10 (count + 1) = 10 * (digits * Nat.pow 10 count) := by
      change digits * (Nat.pow 10 count * 10) = 10 * (digits * Nat.pow 10 count)
      rw [Nat.mul_comm 10, Nat.mul_assoc]
    rw [hpow, toDouble?_ten_mul, ih (exponent + 1)]
    congr 2
    omega

theorem toDouble?_stripZeros (fuel : Nat) (x : Decimal) :
    (stripZeros fuel x).toDouble? = x.toDouble? := by
  induction fuel generalizing x with
  | zero => rfl
  | succ fuel ih =>
    rw [stripZeros]
    split
    · rename_i h
      have hdigits : x.digits = 10 * (x.digits / 10) := by omega
      rw [ih, ← toDouble?_ten_mul, ← hdigits]
    · rfl

end Decimal

namespace Double

/-! ## The shortest decimal -/

theorem units_pos {m : Nat} (h : m ≠ 0) : 0 < units m := by
  by_cases hc : coarseness m = 0
  · simp [units, hc]
    omega
  · exact Nat.mul_pos (Nat.lt_of_lt_of_le (by decide) (significand_bounds hc).1)
      (Nat.pow_pos (by decide))

theorem coarseness_le {m : Nat} (h : m < 2047 * binade) : coarseness m ≤ 2045 := by
  have hdiv : m / binade < 2047 := Nat.div_lt_of_lt_mul (by rwa [Nat.mul_comm])
  rw [coarseness]
  omega

theorem units_lt {m k : Nat} (h : coarseness m ≤ k) : units m < 2 * binade * Nat.pow 2 k := by
  have hsignificand : m - coarseness m * binade < 2 * binade := by
    by_cases hc : coarseness m = 0
    · rw [coarseness, binade_eq] at hc
      rw [binade_eq]
      omega
    · exact (significand_bounds hc).2
  calc units m < 2 * binade * Nat.pow 2 (coarseness m) :=
        Nat.mul_lt_mul_of_pos_right hsignificand (Nat.pow_pos (by decide))
    _ ≤ 2 * binade * Nat.pow 2 k := Nat.mul_le_mul_left _ (Nat.pow_le_pow_right (by decide) h)

theorem length_digitChars_le_iff {n k : Nat} (hk : 0 < k) :
    (Decimal.digitChars n).length ≤ k ↔ n < Nat.pow 10 k :=
  Nat.length_toDigits_le_iff (by decide) hk

/-- A double stands for itself when it is written with all of its digits: its magnitude is a
multiple of a power of one half, which is a power of five over the power of ten. The bounds say
that it has neither too few digits nor too many. -/
theorem toDouble?_units {x : Double} (hx : x.magnitude ≠ 0) {k c : Nat}
    (hone : unitsOfOne = Nat.pow 2 k) (hk : 401 < k) (hc : coarseness x.magnitude ≤ c)
    (hlower : Nat.pow 10 (k - 401) ≤ Nat.pow 5 k)
    (hupper : 2 * binade * Nat.pow 2 c * Nat.pow 5 k ≤ Nat.pow 10 (k + 400)) :
    Decimal.toDouble? ⟨x.negative, units x.magnitude * Nat.pow 5 k, -k⟩ = some x := by
  have hunits := units_pos hx
  have hpow : 0 < Nat.pow 5 k := Nat.pow_pos (by decide)
  have hdigits : units x.magnitude * Nat.pow 5 k ≠ 0 := Nat.ne_of_gt (Nat.mul_pos hunits hpow)
  have hfew : ¬(Decimal.digitChars (units x.magnitude * Nat.pow 5 k)).length ≤ k - 401 := by
    rw [length_digitChars_le_iff (by omega), Nat.not_lt]
    exact Nat.le_trans hlower (Nat.le_mul_of_pos_left _ hunits)
  have hmany : (Decimal.digitChars (units x.magnitude * Nat.pow 5 k)).length ≤ k + 400 := by
    rw [length_digitChars_le_iff (by omega)]
    exact Nat.lt_of_lt_of_le (Nat.mul_lt_mul_of_pos_right (units_lt hc) hpow) hupper
  have hten : Nat.pow 10 k = Nat.pow 5 k * unitsOfOne := by
    rw [hone]
    exact Nat.mul_pow 5 2 k
  -- The power of five cancels, and what is left is the magnitude as a fraction of units.
  have hnearest : nearest (units x.magnitude * Nat.pow 5 k * Nat.pow 10 (-(k : Int)).toNat)
      (Nat.pow 10 (- -(k : Int)).toNat) = x.magnitude := by
    have hnum : (-(k : Int)).toNat = 0 := by omega
    have hden : (- -(k : Int)).toNat = k := by omega
    have hzero : Nat.pow 10 0 = 1 := rfl
    rw [hnum, hden, hzero, Nat.mul_one, Nat.mul_comm (units _), hten, nearest_mul_left hpow,
      nearest_units]
  have hinside : ¬(units x.magnitude * Nat.pow 5 k = 0 ∨
      Decimal.width ⟨x.negative, units x.magnitude * Nat.pow 5 k, -k⟩ < -400) := by
    simp only [Decimal.width]
    omega
  have hbelow : ¬400 < Decimal.width ⟨x.negative, units x.magnitude * Nat.pow 5 k, -k⟩ := by
    simp only [Decimal.width]
    omega
  simp only [Decimal.toDouble?, if_neg hinside, if_neg hbelow, ofFraction?, Decimal.fraction,
    hnearest, dif_pos x.inRange]

/-- The decimal with all digits of a double stands for it. -/
theorem exact_toDouble? {x : Double} (h : x.magnitude ≠ 0) : x.exact.toDouble? = some x :=
  toDouble?_units h rfl (by decide) (coarseness_le x.inRange) (by decide +kernel)
    (by decide +kernel)

/-- The shortest decimal of a double stands for that double. -/
theorem shortest_toDouble? (tie : Tie) (x : Double) : (x.shortest tie).toDouble? = some x := by
  rw [shortest]
  split
  · rename_i hzero
    obtain ⟨negative, magnitude, inRange⟩ := x
    subst hzero
    rfl
  · rename_i hzero
    -- Whatever is found among the neighbours has been tested.
    cases htried : digitCounts.findSome? fun (count : Nat) =>
        (x.neighbours tie (x.leadingPower - count + 1)).find? fun y => y.toDouble? == some x with
    | none => exact exact_toDouble? hzero
    | some y =>
      obtain ⟨count, _, hfind⟩ := List.exists_of_findSome?_eq_some htried
      have htest := List.find?_some hfind
      exact beq_iff_eq.1 htest

end Double

end RankedRules
