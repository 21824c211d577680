/-
Comparison as equality and order.

Two values that may be missing are equal if and only if they have one measure: nothing for a missing
value and for null, the place among the doubles for a number, and the canonical form for all others.
So equality is an equivalence. Two numbers are in the order of their places, two strings in that of
their texts, and these are linear orders in which only equal values stand at one place. Other values
are in no order.

* `Operator.Measure`, `Operator.measure` — what equality compares; `Operator.valuesEqual_iff`;
* `Operator.HaveOrder`, `Operator.Below` — two numbers or two strings, and the lower of them;
* `Operator.order?_eq_lt_iff`, `Operator.order?_eq_gt_iff`, `Operator.order?_eq_eq_iff` — what the
  order of two values means;
* `Operator.comparisons_consistent` — the laws of the operators.
-/
import Mathlib.Data.String.Basic
import RankedRules.Operator
import RankedRules.Proofs.Value.Canonical

namespace RankedRules.Operator

variable {l m r : Option Value}

/-! ## Equality -/

/-- What is compared for equality. -/
inductive Measure
  | nothing
  | number (rank : Int)
  | other (form : Value)

/-- The measure of a value: null has that of a missing value. -/
def measure : Option Value → Measure
  | none => .nothing
  | some .null => .nothing
  | some (.number n) => .number n.rank
  | some value => .other value.canonical

/-- Values are equal if and only if they have one measure. -/
theorem valuesEqual_iff (l r : Option Value) :
    valuesEqual l r = true ↔ measure l = measure r := by
  cases l with
  | none => cases r with
    | none => exact iff_of_true rfl rfl
    | some w => cases w <;> simp [valuesEqual, measure, Value.present, Value.isNull]
  | some v =>
    cases r with
    | none => cases v <;> simp [valuesEqual, measure, Value.present, Value.isNull]
    | some w =>
      have hsame := Value.same_iff v w
      cases v <;> cases w <;>
        simp_all [valuesEqual, measure, Value.present, Value.isNull, Value.canonical, Value.same]

/-! ## Order -/

/-- Two numbers, or two strings. -/
inductive HaveOrder : Option Value → Option Value → Prop
  | numbers (m n : Number) : HaveOrder (some (.number m)) (some (.number n))
  | strings (s t : String) : HaveOrder (some (.string s)) (some (.string t))

/-- A number at a lower place than another one, or a string in front of another one. -/
inductive Below : Option Value → Option Value → Prop
  | numbers {m n : Number} (h : m.rank < n.rank) : Below (some (.number m)) (some (.number n))
  | strings {s t : String} (h : s < t) : Below (some (.string s)) (some (.string t))

theorem Below.trans (h : Below l m) (h' : Below m r) : Below l r := by
  cases h with
  | numbers h =>
    cases h' with
    | numbers h' => exact .numbers (Int.lt_trans h h')
  | strings h =>
    cases h' with
    | strings h' => exact .strings (String.lt_trans h h')

theorem orderOfNumbers_eq (m n : Number) : orderOfNumbers m n = Ord.compare m.rank n.rank :=
  (LinearOrder.compare_eq_compareOfLessAndEq m.rank n.rank).symm

theorem orderOfStrings_eq (s t : String) : orderOfStrings s t = Ord.compare s t :=
  (LinearOrder.compare_eq_compareOfLessAndEq s t).symm

/-- Only two numbers or two strings have an order. -/
theorem order?_eq_none_iff : order? l r = none ↔ ¬HaveOrder l r := by
  constructor
  · rintro h (⟨m, n⟩ | ⟨s, t⟩)
    · cases h
    · cases h
  · intro h
    rw [order?.eq_def]
    split
    · exact absurd (.numbers _ _) h
    · exact absurd (.strings _ _) h
    · rfl

theorem order?_eq_lt_iff : order? l r = some .lt ↔ Below l r := by
  constructor
  · intro h
    rw [order?.eq_def] at h
    split at h
    · rw [orderOfNumbers_eq, Option.some_inj, compare_lt_iff_lt] at h
      exact .numbers h
    · rw [orderOfStrings_eq, Option.some_inj, compare_lt_iff_lt] at h
      exact .strings h
    · cases h
  · rintro (h | h)
    · rw [order?, orderOfNumbers_eq, compare_lt_iff_lt.2 h]
    · rw [order?, orderOfStrings_eq, compare_lt_iff_lt.2 h]

/-- Two values in the other order have the reverse order. -/
theorem order?_swap (l r : Option Value) : order? r l = (order? l r).map Ordering.swap := by
  by_cases h : HaveOrder l r
  · cases h with
    | numbers m n =>
      rw [order?, order?, orderOfNumbers_eq, orderOfNumbers_eq, Option.map_some]
      exact congrArg some Std.OrientedCmp.eq_swap
    | strings s t =>
      rw [order?, order?, orderOfStrings_eq, orderOfStrings_eq, Option.map_some]
      exact congrArg some Std.OrientedCmp.eq_swap
  · have h' : ¬HaveOrder r l := by
      rintro (⟨m, n⟩ | ⟨s, t⟩)
      · exact h (.numbers n m)
      · exact h (.strings t s)
    rw [order?_eq_none_iff.2 h, order?_eq_none_iff.2 h']
    rfl

theorem order?_eq_gt_iff : order? l r = some .gt ↔ Below r l := by
  rw [← order?_eq_lt_iff, order?_swap l r]
  cases order? l r with
  | none => simp
  | some o => cases o <;> simp

/-- Of two values that have an order, those at one place are the equal ones. -/
theorem order?_eq_eq_iff (h : HaveOrder l r) : order? l r = some .eq ↔ valuesEqual l r = true := by
  rw [valuesEqual_iff]
  cases h with
  | numbers m n => simp [order?, orderOfNumbers_eq, measure]
  | strings s t => simp [order?, orderOfStrings_eq, measure, Value.canonical]

/-! ## The operators -/

theorem less_iff : less.compare l r = true ↔ Below l r := by
  rw [compare, beq_iff_eq, order?_eq_lt_iff]

theorem greater_iff : greater.compare l r = true ↔ Below r l := by
  rw [compare, beq_iff_eq, order?_eq_gt_iff]

theorem equal_iff : equal.compare l r = true ↔ measure l = measure r := valuesEqual_iff l r

/-- A missing value counts as null on the left. -/
theorem compare_none_left (op : Operator) (r : Option Value) :
    op.compare none r = op.compare (some .null) r := by
  cases op <;> rfl

/-- A missing value counts as null on the right. -/
theorem compare_none_right (op : Operator) (l : Option Value) :
    op.compare l none = op.compare l (some .null) := by
  -- What is on the left decides first whether there is an order.
  cases l with
  | none => cases op <;> rfl
  | some v => cases op <;> cases v <;> rfl

/-- The laws of the comparison operators. A missing value counts as null. Equality is an equivalence
and inequality its opposite. Of two numbers or two strings either the first one is less, or they are
equal, or the first one is greater, and only one of these; the operators that allow equality say
that one of two of these is so. Less is the reverse of greater and transitive. Values that are not
two numbers or two strings are in no order. -/
theorem comparisons_consistent :
    (∀ op r, compare op none r = compare op (some .null) r ∧
      compare op r none = compare op r (some .null)) ∧
    ((∀ l, equal.compare l l = true) ∧
      (∀ l r, equal.compare l r = true → equal.compare r l = true) ∧
      (∀ l m r, equal.compare l m = true → equal.compare m r = true → equal.compare l r = true) ∧
      ∀ l r, notEqual.compare l r = !equal.compare l r) ∧
    (∀ l r, HaveOrder l r →
      (less.compare l r = true ∧ equal.compare l r = false ∧ greater.compare l r = false ∨
        less.compare l r = false ∧ equal.compare l r = true ∧ greater.compare l r = false ∨
        less.compare l r = false ∧ equal.compare l r = false ∧ greater.compare l r = true) ∧
      lessOrEqual.compare l r = (less.compare l r || equal.compare l r) ∧
      greaterOrEqual.compare l r = (greater.compare l r || equal.compare l r)) ∧
    (∀ l r, less.compare l r = greater.compare r l) ∧
    (∀ l m r, less.compare l m = true → less.compare m r = true → less.compare l r = true) ∧
    ∀ l r, ¬HaveOrder l r →
      less.compare l r = false ∧ greater.compare l r = false ∧
        lessOrEqual.compare l r = false ∧ greaterOrEqual.compare l r = false := by
  refine ⟨?_, ⟨?_, ?_, ?_, fun _ _ => rfl⟩, ?_, ?_, ?_, ?_⟩
  · exact fun op r => ⟨compare_none_left op r, compare_none_right op r⟩
  · exact fun l => equal_iff.2 rfl
  · exact fun l r h => equal_iff.2 (equal_iff.1 h).symm
  · exact fun l m r h h' => equal_iff.2 ((equal_iff.1 h).trans (equal_iff.1 h'))
  · intro l r h
    have hequal : valuesEqual l r = (order? l r == some .eq) := by
      rw [Bool.eq_iff_iff, beq_iff_eq, order?_eq_eq_iff h]
    have hsome : order? l r ≠ none := fun hnone => order?_eq_none_iff.1 hnone h
    obtain ⟨o, ho⟩ := Option.ne_none_iff_exists'.1 hsome
    simp only [compare, hequal, ho]
    cases o <;> decide
  · intro l r
    rw [Bool.eq_iff_iff, less_iff, greater_iff]
  · exact fun l m r h h' => less_iff.2 ((less_iff.1 h).trans (less_iff.1 h'))
  · intro l r h
    have hnone := order?_eq_none_iff.2 h
    simp [compare, hnone]

/-- Two integers that one double is nearest to, two strings, and null beside a missing value. -/
theorem comparisons_consistent_rounded :
    equal.compare (some (.ofInt 9007199254740993)) (some (.ofInt 9007199254740992)) = true ∧
    equal.compare (some (.ofInt 9007199254740992)) (some (.ofInt 9007199254740993)) = true ∧
    HaveOrder (some (.string "a")) (some (.string "ab")) ∧
    less.compare (some (.string "a")) (some (.string "ab")) = true ∧
    lessOrEqual.compare (some (.string "a")) (some (.string "ab")) = true ∧
    equal.compare none (some .null) = true ∧ ¬HaveOrder none (some .null) ∧
    lessOrEqual.compare none (some .null) = false := by
  obtain ⟨hmissing, ⟨hrefl, hsymm, -⟩, horder, -, -, hnone⟩ := comparisons_consistent
  have hrounded : equal.compare (some (.ofInt 9007199254740993))
      (some (.ofInt 9007199254740992)) = true := by decide +kernel
  have hstrings : HaveOrder (some (.string "a")) (some (.string "ab")) := .strings "a" "ab"
  have hless : less.compare (some (.string "a")) (some (.string "ab")) = true := by decide +kernel
  have hnull : ¬HaveOrder none (some .null) := nofun
  obtain ⟨-, hor, -⟩ := horder _ _ hstrings
  refine ⟨hrounded, hsymm _ _ hrounded, hstrings, hless, ?_, ?_, hnull, ?_⟩
  · rw [hor, hless, Bool.true_or]
  · rw [← (hmissing .equal none).2]
    exact hrefl none
  · exact (hnone _ _ hnull).2.2.1

end RankedRules.Operator
