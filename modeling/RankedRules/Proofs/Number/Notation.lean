/-
The notation of a double.

A double is written with an exponent if its shortest decimal is too small or too large for
positional notation. That decimal may lie on another side of the double than the bounds, but it is
rounded to the double, and rounding keeps the order. So the notation shows the size of the double
itself: without an exponent are zero and the doubles from `0.00001` up to below ten to the power
of 16.

* `Double.IsModerate` — the doubles of these sizes;
* `Decimal.fraction_lt_iff` — the width of a decimal tells the powers of ten that it is below;
* `Double.width_written_le_iff` — so does the size of a double;
* `Double.exponent_iff` — which doubles are written without an exponent.
-/
import RankedRules.Proofs.Number.Nearest
import RankedRules.Proofs.Number.Printed

namespace RankedRules

namespace Decimal

theorem mul_pow_lt_pow_iff {n : Nat} (hn : n ≠ 0) (i j : Nat) :
    n * Nat.pow 10 i < Nat.pow 10 j ↔ (digitChars n).length + i ≤ j := by
  have hlength : 0 < (digitChars n).length := List.length_pos_iff.2 (digitChars_ne_nil n)
  have hpow : 0 < Nat.pow 10 i := Nat.pow_pos (by decide)
  by_cases hij : i < j
  · obtain ⟨k, rfl⟩ : ∃ k, j = k + i := ⟨j - i, by omega⟩
    have hsplit : Nat.pow 10 (k + i) = Nat.pow 10 k * Nat.pow 10 i := Nat.pow_add 10 k i
    rw [hsplit, Nat.mul_lt_mul_right hpow, ← Double.length_digitChars_le_iff (by omega)]
    omega
  · have hle : Nat.pow 10 j ≤ n * Nat.pow 10 i :=
      Nat.le_trans (Nat.pow_le_pow_right (by decide) (Nat.not_lt.1 hij))
        (Nat.le_mul_of_pos_left _ (Nat.pos_of_ne_zero hn))
    refine iff_of_false (Nat.not_lt.2 hle) ?_
    omega

/-- A decimal is below a power of ten if it is not wider. -/
theorem fraction_lt_iff {y : Decimal} (hy : y.digits ≠ 0) (p q : Nat) :
    y.fraction.1 * Nat.pow 10 q < Nat.pow 10 p * y.fraction.2 ↔ y.width ≤ p - q := by
  have hleft : y.fraction.1 * Nat.pow 10 q = y.digits * Nat.pow 10 (y.exponent.toNat + q) := by
    show y.digits * 10 ^ y.exponent.toNat * 10 ^ q = y.digits * 10 ^ (y.exponent.toNat + q)
    rw [Nat.mul_assoc, ← Nat.pow_add]
  have hright : Nat.pow 10 p * y.fraction.2 = Nat.pow 10 (p + (-y.exponent).toNat) :=
    (Nat.pow_add 10 p _).symm
  rw [hleft, hright, mul_pow_lt_pow_iff hy, width]
  omega

theorem fraction_pos (y : Decimal) : 0 < y.fraction.2 :=
  Nat.pow_pos (by decide)

/-- A decimal that is read as a double other than zero is rounded to it. -/
theorem nearest_of_toDouble? {y : Decimal} {x : Double} (h : y.toDouble? = some x)
    (hx : x.magnitude ≠ 0) :
    y.digits ≠ 0 ∧ Double.nearest y.fraction.1 y.fraction.2 = x.magnitude := by
  rw [toDouble?] at h
  split at h
  · cases h
    exact absurd rfl hx
  · rename_i hsmall
    split at h
    · cases h
    · rw [Double.ofFraction?] at h
      split at h
      · cases h
        exact ⟨fun hzero => hsmall (.inl hzero), rfl⟩
      · cases h

end Decimal

namespace Double

/-- The decimal whose digits are written. -/
def written (x : Double) : Decimal := (x.shortest .even).stripZeros 17

theorem written_toDouble? (x : Double) : x.written.toDouble? = some x := by
  rw [written, Decimal.toDouble?_stripZeros, shortest_toDouble?]

/-- What is written is not wider than a power of ten if the double is below it. At the power itself
the decimal is one wider. -/
theorem width_written_le_iff {x : Double} (hx : x.magnitude ≠ 0) {p q : Nat}
    (hpower : ∀ z : Double, z.magnitude = nearest (Nat.pow 10 p) (Nat.pow 10 q) →
      (p : Int) - q < z.written.width) :
    x.written.width ≤ p - q ↔ x.magnitude < nearest (Nat.pow 10 p) (Nat.pow 10 q) := by
  obtain ⟨hdigits, hnearest⟩ := Decimal.nearest_of_toDouble? x.written_toDouble? hx
  have hden := x.written.fraction_pos
  have hpow : 0 < Nat.pow 10 q := Nat.pow_pos (by decide)
  rw [← Decimal.fraction_lt_iff hdigits]
  constructor
  · intro hlt
    have hle := nearest_mono hden hpow (Nat.le_of_lt hlt)
    rw [hnearest] at hle
    refine Nat.lt_of_le_of_ne hle fun heq => ?_
    have hwide := hpower x heq
    rw [Decimal.fraction_lt_iff hdigits] at hlt
    omega
  · intro hlt
    refine Nat.lt_of_not_le fun hle => ?_
    have hmono := nearest_mono hpow hden hle
    rw [hnearest] at hmono
    omega

/-- The doubles at a magnitude have a property if the positive and the negative one have. -/
theorem forall_of_magnitude {P : Double → Prop} {m : Nat} (hm : m < 2047 * binade)
    (hpositive : P ⟨false, m, hm⟩) (hnegative : P ⟨true, m, hm⟩) :
    ∀ z : Double, z.magnitude = m → P z := by
  rintro ⟨negative, magnitude, inRange⟩ rfl
  cases negative
  · exact hpositive
  · exact hnegative

/-- Zero, or of a size from `0.00001` up to below ten to the power of 16. -/
def IsModerate (x : Double) : Prop :=
  x.magnitude = 0 ∨
    unitsOfOne ≤ units x.magnitude * 100000 ∧
      units x.magnitude < 10000000000000000 * unitsOfOne

instance (x : Double) : Decidable x.IsModerate :=
  inferInstanceAs (Decidable (_ ∨ _ ∧ _))

theorem width_written_le_sixteen {x : Double} (hx : x.magnitude ≠ 0) :
    x.written.width ≤ 16 ↔ units x.magnitude < 10000000000000000 * unitsOfOne := by
  have hbound : nearest (Nat.pow 10 16) (Nat.pow 10 0) = 4846369599423283200 := by decide +kernel
  have hunits : units 4846369599423283200 = 10000000000000000 * unitsOfOne := by decide +kernel
  have hwidth := width_written_le_iff hx (p := 16) (q := 0) <| by
    rw [hbound]
    exact forall_of_magnitude (by decide) (by decide +kernel) (by decide +kernel)
  rw [hbound, ← units_lt_units_iff, hunits] at hwidth
  exact hwidth

theorem width_written_le_minus_five {x : Double} (hx : x.magnitude ≠ 0) :
    x.written.width ≤ -5 ↔ units x.magnitude * 100000 < unitsOfOne := by
  have hbound : nearest (Nat.pow 10 0) (Nat.pow 10 5) = 4532020583610935537 := by decide +kernel
  have habove : unitsOfOne ≤ units 4532020583610935537 * 100000 := by decide +kernel
  have hbelow : units 4532020583610935536 * 100000 < unitsOfOne := by decide +kernel
  have hwidth := width_written_le_iff hx (p := 0) (q := 5) <| by
    rw [hbound]
    exact forall_of_magnitude (by decide) (by decide +kernel) (by decide +kernel)
  rw [hbound] at hwidth
  refine hwidth.trans ⟨fun hlt => ?_, fun hlt => ?_⟩
  · have hle : units x.magnitude ≤ units 4532020583610935536 :=
      units_le_units_iff.2 (Nat.le_of_lt_succ hlt)
    exact Nat.lt_of_le_of_lt (Nat.mul_le_mul_right _ hle) hbelow
  · exact units_lt_units_iff.1 (Nat.lt_of_mul_lt_mul_right (Nat.lt_of_lt_of_le hlt habove))

/-- A double is written without an exponent if it is zero or of a moderate size, and only then. -/
theorem exponent_iff (x : Double) : 'e' ∉ x.text ↔ x.IsModerate := by
  have hletter : 'e' ∉ x.text ↔ -5 < x.written.width ∧ x.written.width ≤ 16 := by
    rw [text, ← written]
    split
    · rename_i hrange
      exact iff_of_true x.written.exponent_notMem_positional hrange
    · rename_i hrange
      exact iff_of_false (fun hmem => hmem (by simp [Decimal.scientific])) hrange
  rw [hletter, IsModerate]
  by_cases hzero : x.magnitude = 0
  · have hwidth : ∀ z : Double, z.magnitude = 0 → -5 < z.written.width ∧ z.written.width ≤ 16 :=
      forall_of_magnitude (by decide) (by decide +kernel) (by decide +kernel)
    exact iff_of_true (hwidth x hzero) (.inl hzero)
  · rw [width_written_le_sixteen hzero, ← Int.not_le, width_written_le_minus_five hzero, Nat.not_lt]
    exact ⟨.inr, fun h => h.resolve_left hzero⟩

end Double

end RankedRules
