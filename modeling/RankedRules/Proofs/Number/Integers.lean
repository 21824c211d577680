/-
Integers as doubles.

An integer is compared by the double that is nearest to it. That double is again an integer: the one
with at most 53 binary digits in front of its zeros that is nearest, and of two such the one whose
last digit is even. Up to `2 ^ 53` this is the integer itself, and beyond it several integers share
one. The order is kept.

* `Number.IsShort` — at most 53 binary digits, and then zeros;
* `Number.rounded` — the nearest of these integers, `Number.rounded_nearest`;
* `Number.rounded_eq_self`, `Number.rounded_mono` — where nothing is lost, and what never is;
* `Number.rank_lt_iff`, `Number.rank_eq_iff` — integers have the places of what they are rounded to.
-/
import RankedRules.Number.Basic
import RankedRules.Proofs.Number.Nearest

namespace RankedRules

/-! ## Natural numbers -/

/-- A rounded number is at least as near as any other one. -/
theorem Double.roundHalfEven_nearest {den : Nat} (hden : 0 < den) (num k : Nat) :
    ((num : Int) - (roundHalfEven num den * den : Nat)).natAbs ≤
      ((num : Int) - (k * den : Nat)).natAbs := by
  have hsplit := Nat.div_add_mod num den
  have hrest := Nat.mod_lt num hden
  rw [Nat.mul_comm] at hsplit
  have hstep : ∀ i j : Nat, i < j → i * den + den ≤ j * den := fun i j hij => by
    rw [← Nat.succ_mul]
    exact Nat.mul_le_mul_right den hij
  have hnext : (num / den + 1) * den = num / den * den + den := Nat.succ_mul _ _
  -- What is compared lies at the floor, at the number above it, or beyond one of them.
  have hplace : k = num / den ∨ k = num / den + 1 ∨ k * den + den ≤ num / den * den ∨
      (num / den + 1) * den + den ≤ k * den := by
    rcases Nat.lt_trichotomy k (num / den) with hlt | heq | hgt
    · exact .inr (.inr (.inl (hstep _ _ hlt)))
    · exact .inl heq
    · rcases Nat.eq_or_lt_of_le hgt with heq | hlt
      · exact .inr (.inl heq.symm)
      · exact .inr (.inr (.inr (hstep _ _ hlt)))
  rcases roundHalfEven_cases num den with ⟨hround, hhalf, -⟩ | ⟨hround, hhalf, -⟩
  · rw [hround]
    rcases hplace with rfl | rfl | hbelow | habove <;> omega
  · rw [hround]
    rcases hplace with rfl | rfl | hbelow | habove <;> omega

namespace Number

/-- A natural number with at most 53 binary digits in front of its zeros. -/
def IsShort (n : Nat) : Prop :=
  ∃ digits zeros : Nat, digits < 0x20000000000000 ∧ n = digits * Nat.pow 2 zeros

/-- The nearest natural number with at most 53 binary digits in front of its zeros. -/
def shortened (n : Nat) : Nat :=
  Double.roundHalfEven n (Nat.pow 2 (Nat.log2 n - 52)) * Nat.pow 2 (Nat.log2 n - 52)

/-- The integer that is the double nearest to an integer. -/
def rounded (n : Int) : Int :=
  n.sign * shortened n.natAbs

theorem shortened_of_log2 {n : Nat} (h : Nat.log2 n ≤ 52) : shortened n = n := by
  have hpow : Nat.pow 2 (Nat.log2 n - 52) = 1 := by
    rw [Nat.sub_eq_zero_of_le h]
  have hexact : Double.roundHalfEven (n * 1) 1 = n := Double.roundHalfEven_mul_self (by decide) n
  rw [Nat.mul_one] at hexact
  rw [shortened, hpow, hexact, Nat.mul_one]

theorem shortened_eq_self {n : Nat} (h : n ≤ 0x20000000000000) : shortened n = n := by
  rcases Nat.eq_or_lt_of_le h with rfl | hlt
  · decide +kernel
  · by_cases hzero : n = 0
    · subst hzero
      rfl
    · have hlog := (Nat.log2_lt (k := 53) hzero).2 hlt
      exact shortened_of_log2 (by omega)

/-- Where digits are dropped, the number has 52 digits more than these. -/
theorem pow_le_of_dropped {n dropped : Nat} (h : dropped = Nat.log2 n - 52) (hne : dropped ≠ 0) :
    0x10000000000000 * Nat.pow 2 dropped ≤ n := by
  have hzero : n ≠ 0 := by
    rintro rfl
    exact hne h
  refine Nat.le_trans ?_ (Nat.log2_self_le hzero)
  show 2 ^ 52 * 2 ^ dropped ≤ _
  rw [← Nat.pow_add]
  exact Nat.pow_le_pow_right (by decide) (by omega)

theorem isShort_shortened (n : Nat) : IsShort (shortened n) := by
  obtain ⟨dropped, hdropped⟩ : ∃ dropped, dropped = Nat.log2 n - 52 := ⟨_, rfl⟩
  have hupper : Double.roundHalfEven n (Nat.pow 2 dropped) ≤ 0x20000000000000 := by
    have hspacing : dropped = Nat.log2 (n / 1) - 52 := by rw [Nat.div_one, hdropped]
    have hbounds := (Double.spaced_bounds hspacing).1
    rwa [Nat.one_mul] at hbounds
  rw [shortened, ← hdropped]
  rcases Nat.eq_or_lt_of_le hupper with heq | hlt
  · refine ⟨0x10000000000000, dropped + 1, by decide, ?_⟩
    rw [heq, show Nat.pow 2 (dropped + 1) = 2 * Nat.pow 2 dropped from Nat.pow_succ',
      ← Nat.mul_assoc]
  · exact ⟨_, _, hlt, rfl⟩

/-- No other number of this kind is nearer. -/
theorem shortened_nearest (n : Nat) {m : Nat} (h : IsShort m) :
    ((n : Int) - shortened n).natAbs ≤ ((n : Int) - m).natAbs := by
  obtain ⟨digits, zeros, hdigits, rfl⟩ := h
  obtain ⟨dropped, hdropped⟩ : ∃ dropped, dropped = Nat.log2 n - 52 := ⟨_, rfl⟩
  have hpow : 0 < Nat.pow 2 dropped := Nat.pow_pos (by decide)
  rw [shortened, ← hdropped]
  by_cases hzeros : dropped ≤ zeros
  · have hmultiple : digits * Nat.pow 2 zeros =
        digits * Nat.pow 2 (zeros - dropped) * Nat.pow 2 dropped := by
      rw [Nat.mul_assoc]
      refine congrArg (digits * ·) ?_
      show 2 ^ zeros = 2 ^ (zeros - dropped) * 2 ^ dropped
      rw [← Nat.pow_add, Nat.sub_add_cancel hzeros]
    rw [hmultiple]
    exact Double.roundHalfEven_nearest hpow n _
  · -- With fewer zeros it is farther below than the power of two in front of the number.
    have hpower := pow_le_of_dropped hdropped (by omega)
    have hbelow : digits * Nat.pow 2 zeros ≤ 0x10000000000000 * Nat.pow 2 dropped := by
      calc digits * Nat.pow 2 zeros ≤ 0x20000000000000 * Nat.pow 2 zeros :=
            Nat.mul_le_mul_right _ (Nat.le_of_lt hdigits)
        _ = 0x10000000000000 * Nat.pow 2 (zeros + 1) := by
            rw [show Nat.pow 2 (zeros + 1) = 2 * Nat.pow 2 zeros from Nat.pow_succ', ← Nat.mul_assoc]
        _ ≤ 0x10000000000000 * Nat.pow 2 dropped :=
            Nat.mul_le_mul_left _ (Nat.pow_le_pow_right (by decide) (by omega))
    have hnear := Double.roundHalfEven_nearest hpow n 0x10000000000000
    omega

/-! ## Integers -/

theorem natAbs_rounded (n : Int) : (rounded n).natAbs = shortened n.natAbs := by
  by_cases hzero : n = 0
  · subst hzero
    rfl
  · rw [rounded, Int.natAbs_mul, Int.natAbs_sign_of_ne_zero hzero, Nat.one_mul, Int.natAbs_natCast]

theorem rounded_of_nonneg {n : Int} (h : 0 ≤ n) : rounded n = shortened n.natAbs := by
  rcases Int.le_iff_lt_or_eq.1 h with hpos | rfl
  · rw [rounded, Int.sign_eq_one_of_pos hpos, Int.one_mul]
  · rfl

theorem rounded_of_neg {n : Int} (h : n < 0) : rounded n = -(shortened n.natAbs : Int) := by
  rw [rounded, Int.sign_eq_neg_one_of_neg h, Int.neg_mul, Int.one_mul]

/-- Up to `2 ^ 53` an integer is a double. -/
theorem rounded_eq_self {n : Int} (h : n.natAbs ≤ 0x20000000000000) : rounded n = n := by
  rw [rounded, shortened_eq_self h, Int.sign_mul_natAbs]

/-- No integer with so few digits is nearer to an integer than the one that it is rounded to. -/
theorem rounded_nearest (n : Int) {m : Int} (h : IsShort m.natAbs) :
    (n - rounded n).natAbs ≤ (n - m).natAbs := by
  have hnear := shortened_nearest n.natAbs h
  have hzero := shortened_nearest n.natAbs (m := 0) ⟨0, 0, by decide, rfl⟩
  rcases Int.lt_or_le n 0 with hneg | hnonneg
  · rw [rounded_of_neg hneg]
    omega
  · rw [rounded_of_nonneg hnonneg]
    omega

/-! ## Places among the doubles -/

theorem log2_mul_pow {n : Nat} (hn : n ≠ 0) (k : Nat) :
    Nat.log2 (n * Nat.pow 2 k) = Nat.log2 n + k := by
  have hpow : 0 < Nat.pow 2 k := Nat.pow_pos (by decide)
  rw [Nat.log2_eq_iff (Nat.mul_ne_zero hn (Nat.ne_of_gt hpow))]
  constructor
  · rw [Nat.pow_add]
    exact Nat.mul_le_mul_right _ (Nat.log2_self_le hn)
  · rw [Nat.add_right_comm, Nat.pow_add]
    exact Nat.mul_lt_mul_of_pos_right Nat.lt_log2_self hpow

/-- Rounding a number of units drops as many digits more as a unit is below one. -/
theorem roundHalfEven_units {n k spacing : Nat} (hk : 52 ≤ k)
    (hspacing : spacing = Nat.log2 n + k - 52) :
    Double.roundHalfEven (n * Nat.pow 2 k) (Nat.pow 2 spacing) * Nat.pow 2 spacing =
      shortened n * Nat.pow 2 k := by
  by_cases hlog : Nat.log2 n ≤ 52
  · -- Nothing is dropped, since the units make up for the digits that are missing.
    have hsplit : Nat.pow 2 k = Nat.pow 2 (52 - Nat.log2 n) * Nat.pow 2 spacing := by
      show 2 ^ k = 2 ^ (52 - Nat.log2 n) * 2 ^ spacing
      rw [← Nat.pow_add]
      congr 1
      omega
    have hpow : 0 < Nat.pow 2 spacing := Nat.pow_pos (by decide)
    rw [shortened_of_log2 hlog, hsplit, ← Nat.mul_assoc, Double.roundHalfEven_mul_self hpow]
  · have hsplit : Nat.pow 2 spacing = Nat.pow 2 k * Nat.pow 2 (Nat.log2 n - 52) := by
      show 2 ^ spacing = 2 ^ k * 2 ^ (Nat.log2 n - 52)
      rw [← Nat.pow_add]
      congr 1
      omega
    have hpow : 0 < Nat.pow 2 k := Nat.pow_pos (by decide)
    rw [hsplit, Nat.mul_comm n, Double.roundHalfEven_mul_left hpow, shortened, Nat.mul_assoc,
      Nat.mul_comm (Nat.pow 2 k)]

theorem units_nearest_of_pow {n k : Nat} (hn : n ≠ 0) (hone : Double.unitsOfOne = Nat.pow 2 k)
    (hk : 52 < k) : Double.units (Double.nearest n 1) = shortened n * Double.unitsOfOne := by
  obtain ⟨spacing, hspacing⟩ : ∃ spacing, spacing = Nat.log2 n + k - 52 := ⟨_, rfl⟩
  have hlog : spacing = Nat.log2 (n * Nat.pow 2 k / 1) - 52 := by
    rw [Nat.div_one, log2_mul_pow hn, hspacing]
  have hbounds := Double.spaced_bounds hlog
  simp only [Double.nearest, hone, ← hlog]
  rw [Nat.one_mul] at hbounds ⊢
  rw [Double.units_of_spacing (hbounds.2 (by omega)) hbounds.1]
  exact roundHalfEven_units (Nat.le_of_lt hk) hspacing

/-- The double nearest to a natural number is that of the number that it is shortened to. -/
theorem units_nearest (n : Nat) :
    Double.units (Double.nearest n 1) = shortened n * Double.unitsOfOne := by
  by_cases hzero : n = 0
  · subst hzero
    decide +kernel
  · exact units_nearest_of_pow (k := 1074) hzero (by decide +kernel) (by decide)

theorem nearest_lt_nearest_iff (m n : Nat) :
    Double.nearest m 1 < Double.nearest n 1 ↔ shortened m < shortened n := by
  rw [← Double.units_lt_units_iff, units_nearest, units_nearest,
    Nat.mul_lt_mul_right Double.unitsOfOne_pos]

/-- Integers have their places in the order of what they are rounded to. -/
theorem rank_lt_iff (m n : Int) :
    (integer m).rank < (integer n).rank ↔ rounded m < rounded n := by
  have hzero : Double.nearest 0 1 = 0 := by decide +kernel
  have hshort : shortened 0 = 0 := rfl
  have hm := nearest_lt_nearest_iff 0 m.natAbs
  have hn := nearest_lt_nearest_iff 0 n.natAbs
  have hmn := nearest_lt_nearest_iff m.natAbs n.natAbs
  have hnm := nearest_lt_nearest_iff n.natAbs m.natAbs
  rw [hzero, hshort] at hm hn
  simp only [rank]
  by_cases hmNeg : m < 0
  · rw [if_pos hmNeg, rounded_of_neg hmNeg]
    by_cases hnNeg : n < 0
    · rw [if_pos hnNeg, rounded_of_neg hnNeg]
      omega
    · rw [if_neg hnNeg, rounded_of_nonneg (Int.not_lt.1 hnNeg)]
      omega
  · rw [if_neg hmNeg, rounded_of_nonneg (Int.not_lt.1 hmNeg)]
    by_cases hnNeg : n < 0
    · rw [if_pos hnNeg, rounded_of_neg hnNeg]
      omega
    · rw [if_neg hnNeg, rounded_of_nonneg (Int.not_lt.1 hnNeg)]
      omega

theorem rank_eq_iff (m n : Int) : (integer m).rank = (integer n).rank ↔ rounded m = rounded n := by
  have hlt := rank_lt_iff m n
  have hgt := rank_lt_iff n m
  omega

theorem shortened_mono {m n : Nat} (h : m ≤ n) : shortened m ≤ shortened n := by
  have hnearest : Double.nearest m 1 ≤ Double.nearest n 1 :=
    Double.nearest_mono (by decide) (by decide) (Nat.mul_le_mul_right 1 h)
  rwa [← Nat.not_lt, nearest_lt_nearest_iff, Nat.not_lt] at hnearest

/-- The order of integers is kept. -/
theorem rounded_mono {m n : Int} (h : m ≤ n) : rounded m ≤ rounded n := by
  rcases Int.lt_or_le m 0 with hmNeg | hm
  · rw [rounded_of_neg hmNeg]
    rcases Int.lt_or_le n 0 with hnNeg | hn
    · have hle := shortened_mono (show n.natAbs ≤ m.natAbs by omega)
      rw [rounded_of_neg hnNeg]
      omega
    · rw [rounded_of_nonneg hn]
      omega
  · have hle := shortened_mono (show m.natAbs ≤ n.natAbs by omega)
    rw [rounded_of_nonneg hm, rounded_of_nonneg (Int.le_trans hm h)]
    omega

end Number

end RankedRules
