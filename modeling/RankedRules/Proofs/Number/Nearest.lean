/-
Rounding keeps the order.

Of two fractions in order, the nearest magnitudes are in the same order, though they may be one. So
the magnitudes are ordered as their units are, and a magnitude can be told from a bound by
comparing fractions.

* `Double.roundHalfEven_mono` — rounding to a natural number, ties to even, keeps the order;
* `Double.nearest_mono` — and so does rounding to a magnitude, across all spacings;
* `Double.units_le_units_iff` — magnitudes are in the order of their units;
* `Double.units_of_spacing` — the units of a magnitude that is given by its spacing.
-/
import RankedRules.Proofs.Number.Rounding

namespace RankedRules.Double

/-! ## Natural numbers -/

/-- Rounding gives the floor up to the half, and the number above it from the half on. At the half
the parity of the floor decides. -/
theorem roundHalfEven_cases (num den : Nat) :
    (roundHalfEven num den = num / den ∧ 2 * (num % den) ≤ den ∧
      (2 * (num % den) = den → num / den % 2 = 0)) ∨
    (roundHalfEven num den = num / den + 1 ∧ den ≤ 2 * (num % den) ∧
      (2 * (num % den) = den → num / den % 2 = 1)) := by
  rw [roundHalfEven]
  split
  · left
    omega
  · split
    · right
      omega
    · rcases Nat.mod_two_eq_zero_or_one (num / den) with heven | hodd
      · left
        omega
      · right
        omega

theorem div_le_roundHalfEven (num den : Nat) : num / den ≤ roundHalfEven num den := by
  rcases roundHalfEven_cases num den with ⟨h, -, -⟩ | ⟨h, -, -⟩ <;> omega

theorem roundHalfEven_le (num den : Nat) : roundHalfEven num den ≤ num / den + 1 := by
  rcases roundHalfEven_cases num den with ⟨h, -, -⟩ | ⟨h, -, -⟩ <;> omega

/-- The floors of two fractions are in their order. -/
theorem div_le_div_of_fractions {m n d e : Nat} (hd : 0 < d) (he : 0 < e) (h : m * e ≤ n * d) :
    m / d ≤ n / e := by
  rw [Nat.le_div_iff_mul_le he]
  refine Nat.le_of_mul_le_mul_right ?_ hd
  calc m / d * e * d = m / d * d * e := Nat.mul_right_comm _ _ _
    _ ≤ m * e := Nat.mul_le_mul_right e (Nat.div_mul_le_self m d)
    _ ≤ n * d := h

/-- Fractions with one floor are in the order of what is above it. -/
theorem mod_le_mod_of_fractions {m n d e : Nat} (h : m * e ≤ n * d) (hfloor : m / d = n / e) :
    m % d * e ≤ n % e * d := by
  have hm : m * e = d * (m / d) * e + m % d * e := by
    rw [← Nat.add_mul, Nat.div_add_mod]
  have hn : n * d = e * (n / e) * d + n % e * d := by
    rw [← Nat.add_mul, Nat.div_add_mod]
  have hwhole : d * (m / d) * e = e * (n / e) * d := by
    rw [hfloor, Nat.mul_right_comm, Nat.mul_comm d e, Nat.mul_right_comm e]
  omega

/-- Rounding to natural numbers keeps the order of fractions. -/
theorem roundHalfEven_mono {m n d e : Nat} (hd : 0 < d) (he : 0 < e) (h : m * e ≤ n * d) :
    roundHalfEven m d ≤ roundHalfEven n e := by
  have hfloors := div_le_div_of_fractions hd he h
  by_cases hfloor : m / d = n / e
  · have hrests := mod_le_mod_of_fractions h hfloor
    rcases roundHalfEven_cases m d with ⟨hm, -, -⟩ | ⟨hm, hhalf, hodd⟩
    · have hn := div_le_roundHalfEven n e
      omega
    · rcases roundHalfEven_cases n e with ⟨hn, hhalf', heven⟩ | ⟨hn, -, -⟩
      · -- Both are at the half, so that the floor would be even and odd.
        have htwice : 2 * (m % d) * e ≤ 2 * (n % e) * d := by
          rw [Nat.mul_assoc, Nat.mul_assoc]
          exact Nat.mul_le_mul_left 2 hrests
        have hmHalf : 2 * (m % d) ≤ d := by
          refine Nat.le_of_mul_le_mul_right ?_ he
          rw [Nat.mul_comm d]
          exact Nat.le_trans htwice (Nat.mul_le_mul_right d hhalf')
        have hnHalf : e ≤ 2 * (n % e) := by
          refine Nat.le_of_mul_le_mul_right ?_ hd
          rw [Nat.mul_comm e]
          exact Nat.le_trans (Nat.mul_le_mul_right e hhalf) htwice
        omega
      · omega
  · have hm := roundHalfEven_le m d
    have hn := div_le_roundHalfEven n e
    omega

/-! ## Magnitudes -/

theorem log2_mono {m n : Nat} (h : m ≤ n) : Nat.log2 m ≤ Nat.log2 n := by
  by_cases hm : m = 0
  · subst hm
    exact Nat.zero_le _
  · rw [Nat.le_log2 (by omega)]
    exact Nat.le_trans (Nat.log2_self_le hm) h

/-- Counted in its own spacing, what is rounded to a magnitude lies between one and two powers of
two, and only at the finest spacing below them. -/
theorem spaced_bounds {num den spacing : Nat} (hspacing : spacing = Nat.log2 (num / den) - 52) :
    roundHalfEven num (den * Nat.pow 2 spacing) ≤ 2 * binade ∧
      (spacing ≠ 0 → binade ≤ roundHalfEven num (den * Nat.pow 2 spacing)) := by
  have hfloor : num / (den * Nat.pow 2 spacing) = num / den / Nat.pow 2 spacing :=
    (Nat.div_div_eq_div_mul _ _ _).symm
  have hpow : 0 < Nat.pow 2 spacing := Nat.pow_pos (by decide)
  constructor
  · have hlt : num / den < Nat.pow 2 spacing * (2 * binade) := by
      have hlog : num / den < 2 ^ (Nat.log2 (num / den) + 1) := Nat.lt_log2_self
      refine Nat.lt_of_lt_of_le hlog ?_
      show _ ≤ 2 ^ spacing * 2 ^ 53
      rw [← Nat.pow_add]
      exact Nat.pow_le_pow_right (by decide) (by omega)
    have hquotient := Nat.div_lt_of_lt_mul hlt
    have hround := roundHalfEven_le num (den * Nat.pow 2 spacing)
    omega
  · intro hne
    have hle : binade * Nat.pow 2 spacing ≤ num / den := by
      have hzero : num / den ≠ 0 := by
        intro hzero
        rw [hzero] at hspacing
        exact hne hspacing
      have hlog : 2 ^ Nat.log2 (num / den) ≤ num / den := Nat.log2_self_le hzero
      refine Nat.le_trans ?_ hlog
      show 2 ^ 52 * 2 ^ spacing ≤ _
      rw [← Nat.pow_add]
      exact Nat.pow_le_pow_right (by decide) (by omega)
    have hquotient := (Nat.le_div_iff_mul_le hpow).2 hle
    have hround := div_le_roundHalfEven num (den * Nat.pow 2 spacing)
    omega

/-- Rounding to magnitudes keeps the order of fractions. -/
theorem nearest_mono {m n d e : Nat} (hd : 0 < d) (he : 0 < e) (h : m * e ≤ n * d) :
    nearest m d ≤ nearest n e := by
  have hscaled : m * unitsOfOne * e ≤ n * unitsOfOne * d := by
    rw [Nat.mul_right_comm, Nat.mul_right_comm n]
    exact Nat.mul_le_mul_right _ h
  simp only [nearest]
  generalize m * unitsOfOne = m at hscaled
  generalize n * unitsOfOne = n at hscaled
  have hlog := log2_mono (div_le_div_of_fractions hd he hscaled)
  obtain ⟨s, hs⟩ : ∃ s, s = Nat.log2 (m / d) - 52 := ⟨_, rfl⟩
  obtain ⟨t, ht⟩ : ∃ t, t = Nat.log2 (n / e) - 52 := ⟨_, rfl⟩
  rw [← hs, ← ht]
  by_cases hst : s = t
  · subst hst
    have hpow : 0 < Nat.pow 2 s := Nat.pow_pos (by decide)
    refine Nat.add_le_add_left (roundHalfEven_mono (Nat.mul_pos hd hpow) (Nat.mul_pos he hpow) ?_) _
    rw [← Nat.mul_assoc, ← Nat.mul_assoc]
    exact Nat.mul_le_mul_right _ hscaled
  · -- The magnitudes with the finer spacing all come before those with the coarser one.
    have hupper := (spaced_bounds hs).1
    have hlower := (spaced_bounds ht).2 (by omega)
    have hspacings : (s + 1) * binade ≤ t * binade := Nat.mul_le_mul_right _ (by omega)
    rw [Nat.succ_mul] at hspacings
    omega

/-- Magnitudes are in the order of their units. -/
theorem units_le_units_iff {m n : Nat} : units m ≤ units n ↔ m ≤ n := by
  have hle : ∀ {m n : Nat}, units m ≤ units n → m ≤ n := fun {m n} h => by
    have hnearest := nearest_mono unitsOfOne_pos unitsOfOne_pos (Nat.mul_le_mul_right unitsOfOne h)
    rwa [nearest_units, nearest_units] at hnearest
  refine ⟨hle, fun h => Nat.le_of_not_lt fun hlt => ?_⟩
  have heq : m = n := Nat.le_antisymm h (hle (Nat.le_of_lt hlt))
  subst heq
  exact Nat.lt_irrefl _ hlt

theorem units_lt_units_iff {m n : Nat} : units m < units n ↔ m < n := by
  rw [← Nat.not_le, ← Nat.not_le, units_le_units_iff]

/-- The units of a magnitude that is given by its spacing, and by the number of spacings in it. The
last of these numbers belongs to the next spacing as well. -/
theorem units_of_spacing {spacing count : Nat} (hlower : binade ≤ count)
    (hupper : count ≤ 2 * binade) : units (spacing * binade + count) = count * Nat.pow 2 spacing := by
  by_cases hlast : count = 2 * binade
  · have hcoarse : coarseness (spacing * binade + count) = spacing + 1 := by
      have hquotient : spacing * binade + count = (spacing + 2) * binade := by
        rw [hlast, Nat.add_mul]
      rw [coarseness, hquotient, Nat.mul_div_cancel _ (by decide)]
      omega
    have hcount : spacing * binade + count - (spacing + 1) * binade = binade := by
      rw [Nat.succ_mul]
      omega
    rw [units, hcoarse, hcount, hlast, Nat.mul_comm 2, Nat.mul_assoc]
    exact congrArg (binade * ·) (Nat.pow_succ'.trans rfl)
  · have hcoarse : coarseness (spacing * binade + count) = spacing := by
      have hquotient : (spacing * binade + count) / binade = spacing + 1 := by
        refine Nat.div_eq_of_lt_le ?_ ?_
        · rw [Nat.succ_mul]
          omega
        · rw [Nat.succ_mul, Nat.succ_mul]
          omega
      rw [coarseness, hquotient]
      omega
    rw [units, hcoarse, Nat.add_sub_cancel_left]

end RankedRules.Double
