/-
Comparing integers.

Two integers are compared by the doubles nearest to them, so as the integers that have at most 53
binary digits in front of their zeros and are nearest to them. The result is that of the integers
themselves if these differ or the integers are the same, and so for all integers up to `2 ^ 53`. Of
larger integers some are taken for equal that are not; but none are taken in the wrong order.

* `Operator.ofOrder?` — the orders of two sides for which a comparison holds;
* `Operator.compare_numbers` — the comparison of numbers by their places;
* `Operator.integers_compared` — the comparison of integers.
-/
import RankedRules.Proofs.Number.Integers
import RankedRules.Proofs.Operator.Order

namespace RankedRules.Operator

open Number

/-- The orders of two sides for which a comparison holds. The wildcard operators compare none. -/
def ofOrder? : Operator → Option (Ordering → Bool)
  | .equal => some Ordering.isEq
  | .notEqual => some Ordering.isNe
  | .less => some Ordering.isLT
  | .greater => some Ordering.isGT
  | .lessOrEqual => some Ordering.isLE
  | .greaterOrEqual => some Ordering.isGE
  | .like => none
  | .likeFolded => none

/-- Two numbers are compared by their places among the doubles. -/
theorem compare_numbers {op : Operator} {holds : Ordering → Bool} (h : op.ofOrder? = some holds)
    (m n : Number) : op.compare (some (.number m)) (some (.number n)) =
      holds (Ord.compare m.rank n.rank) := by
  have horder : order? (some (.number m)) (some (.number n)) = some (Ord.compare m.rank n.rank) :=
    congrArg some (orderOfNumbers_eq m n)
  have hequal : valuesEqual (some (.number m)) (some (.number n)) =
      (Ord.compare m.rank n.rank).isEq := by
    have hplaces : order? (some (.number m)) (some (.number n)) = some .eq ↔ _ :=
      order?_eq_eq_iff (.numbers m n)
    rw [Bool.eq_iff_iff, ← hplaces, horder, Option.some_inj, Ordering.isEq_iff_eq_eq]
  cases op <;> cases h <;> simp only [compare, horder, hequal]
  all_goals cases Ord.compare m.rank n.rank <;> rfl

/-- Integers have the order of their places, which is that of what they are rounded to. -/
theorem compare_rank (l r : Int) :
    Ord.compare (integer l).rank (integer r).rank = Ord.compare (rounded l) (rounded r) := by
  rcases Int.lt_trichotomy (rounded l) (rounded r) with hlt | heq | hgt
  · rw [compare_lt_iff_lt.2 hlt, compare_lt_iff_lt.2 ((rank_lt_iff l r).2 hlt)]
  · rw [compare_eq_iff_eq.2 heq, compare_eq_iff_eq.2 ((rank_eq_iff l r).2 heq)]
  · rw [compare_gt_iff_gt.2 hgt, compare_gt_iff_gt.2 ((rank_lt_iff r l).2 hgt)]

/-- Integers that are told apart have the order of what they are rounded to. -/
theorem compare_rounded {l r : Int} (h : rounded l = rounded r → l = r) :
    Ord.compare (rounded l) (rounded r) = Ord.compare l r := by
  rcases Int.lt_trichotomy l r with hlt | rfl | hgt
  · have hle := rounded_mono (Int.le_of_lt hlt)
    have hne : rounded l ≠ rounded r := fun heq => Int.ne_of_lt hlt (h heq)
    rw [compare_lt_iff_lt.2 hlt, compare_lt_iff_lt.2 (by omega)]
  · rw [compare_eq_iff_eq.2 rfl, compare_eq_iff_eq.2 rfl]
  · have hle := rounded_mono (Int.le_of_lt hgt)
    have hne : rounded l ≠ rounded r := fun heq => Int.ne_of_gt hgt (h heq)
    rw [compare_gt_iff_gt.2 hgt, compare_gt_iff_gt.2 (by omega)]

/-- Two integers are compared as the nearest integers with at most 53 binary digits in front of
their zeros. This gives the results of comparing the integers themselves if they are told apart, and
only then. Up to `2 ^ 53` nothing is rounded, and the order is always kept. -/
theorem integers_compared (l r : Int) :
    (∀ op holds, ofOrder? op = some holds →
      op.compare (some (.ofInt l)) (some (.ofInt r)) =
        holds (Ord.compare (rounded l) (rounded r))) ∧
    ((∀ op holds, ofOrder? op = some holds →
      op.compare (some (.ofInt l)) (some (.ofInt r)) = holds (Ord.compare l r)) ↔
        (rounded l = rounded r → l = r)) ∧
    (IsShort (rounded l).natAbs ∧
      ∀ m : Int, IsShort m.natAbs → (l - rounded l).natAbs ≤ (l - m).natAbs) ∧
    (l.natAbs ≤ 0x20000000000000 → rounded l = l) ∧
    (l ≤ r → rounded l ≤ rounded r) := by
  have hcompare : ∀ op holds, ofOrder? op = some holds →
      op.compare (some (.ofInt l)) (some (.ofInt r)) =
        holds (Ord.compare (rounded l) (rounded r)) := fun op holds hop => by
    rw [← compare_rank]
    exact compare_numbers hop (integer l) (integer r)
  refine ⟨hcompare, ⟨fun hall heq => ?_, fun hapart op holds hop => ?_⟩, ⟨?_, ?_⟩, ?_, ?_⟩
  · -- The operator of equality shows that they are not told apart.
    have hequal := hall .equal _ rfl
    rw [hcompare .equal _ rfl, compare_eq_iff_eq.2 heq] at hequal
    exact compare_eq_iff_eq.1 (Ordering.isEq_iff_eq_eq.1 hequal.symm)
  · rw [hcompare op holds hop, compare_rounded hapart]
  · rw [natAbs_rounded]
    exact isShort_shortened _
  · exact fun m hm => rounded_nearest l hm
  · exact rounded_eq_self
  · exact rounded_mono

/-- Two odd integers beyond `2 ^ 53` that are told apart, and the two largest integers of 64 bits
without a sign, which are not. -/
theorem integers_compared_beyond :
    less.compare (some (.ofInt 9007199254740993)) (some (.ofInt 9007199254740995)) = true ∧
    equal.compare (some (.ofInt 18446744073709551614)) (some (.ofInt 18446744073709551615)) =
      true ∧
    rounded 18446744073709551615 = 18446744073709551616 ∧
    rounded 9007199254740992 = 9007199254740992 := by
  obtain ⟨-, hright, -⟩ := integers_compared 9007199254740993 9007199254740995
  obtain ⟨hrounded, -⟩ := integers_compared 18446744073709551614 18446744073709551615
  obtain ⟨-, -, -, hself, -⟩ := integers_compared 9007199254740992 0
  have hapart : rounded 9007199254740993 ≠ rounded 9007199254740995 := by decide +kernel
  refine ⟨?_, ?_, by decide +kernel, hself (by decide)⟩
  · exact (hright.2 fun heq => absurd heq hapart) .less _ rfl
  · rw [hrounded .equal _ rfl]
    decide +kernel

/-- Not all integers of 64 bits are compared as numbers: `2 ^ 53 + 1` is taken for `2 ^ 53`. -/
theorem not_all_integers_compared : ¬∀ l r : Int,
    -0x8000000000000000 ≤ l ∧ l < 0x10000000000000000 →
    -0x8000000000000000 ≤ r ∧ r < 0x10000000000000000 →
      ∀ op holds, ofOrder? op = some holds →
        op.compare (some (.ofInt l)) (some (.ofInt r)) = holds (Ord.compare l r) := by
  intro hall
  have hclaimed := hall 9007199254740993 9007199254740992 (by decide) (by decide) .equal _ rfl
  have hequal : equal.compare (some (.ofInt 9007199254740993)) (some (.ofInt 9007199254740992)) =
      true := by decide +kernel
  rw [hequal] at hclaimed
  revert hclaimed
  decide

end RankedRules.Operator
