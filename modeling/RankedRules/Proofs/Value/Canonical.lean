/-
The canonical form of a value.

Values are equal that differ in the signs of zeros only. Without the signs of zeros, equal values
are the same value, so equality of values is an equivalence, however deep the values are nested.

* `Double.canonical`, `Number.canonical` — a number without the sign of a zero;
* `Value.canonical` — a value without the signs of the zeros in it;
* `Value.same_iff` — values are equal if and only if they have one canonical form.
-/
import RankedRules.Value.Basic

namespace RankedRules

namespace Double

/-- A double, zero without its sign. -/
def canonical (x : Double) : Double :=
  ⟨x.negative && x.magnitude ≠ 0, x.magnitude, x.inRange⟩

/-- Doubles at one place in the order differ in the sign of zero only. -/
theorem same_iff (x y : Double) : x.same y = true ↔ x.canonical = y.canonical := by
  obtain ⟨negative, magnitude, hx⟩ := x
  obtain ⟨negative', magnitude', hy⟩ := y
  rw [same, beq_iff_eq, rank, rank, canonical, canonical, Double.mk.injEq]
  cases negative <;> cases negative' <;> simp <;> omega

end Double

namespace Number

/-- A number, zero without its sign. -/
def canonical : Number → Number
  | .integer n => .integer n
  | .double x => .double x.canonical

theorem same_iff (m n : Number) : m.same n = true ↔ m.canonical = n.canonical := by
  cases m with
  | integer i => cases n <;> simp [same, canonical]
  | double x =>
    cases n with
    | integer j => simp [same, canonical]
    | double y => rw [same, x.same_iff y, canonical, canonical, Number.double.injEq]

end Number

namespace Value

mutual

/-- A value, all zeros in it without their signs. -/
def canonical : Value → Value
  | .null => .null
  | .bool holds => .bool holds
  | .number n => .number n.canonical
  | .string text => .string text
  | .array items => .array (canonicalItems items)
  | .object members => .object (canonicalMembers members)

/-- Several values without the signs of zeros. -/
def canonicalItems : List Value → List Value
  | [] => []
  | item :: rest => canonical item :: canonicalItems rest

/-- The members of an object without the signs of zeros. -/
def canonicalMembers : List (String × Value) → List (String × Value)
  | [] => []
  | (name, value) :: rest => (name, canonical value) :: canonicalMembers rest

end

mutual

/-- Values are equal if and only if they have one canonical form. -/
theorem same_iff : ∀ v w : Value, v.same w = true ↔ v.canonical = w.canonical
  | .null, w => by cases w <;> simp [same, canonical]
  | .bool holds, w => by cases w <;> simp [same, canonical]
  | .number n, w => by cases w <;> simp [same, canonical, Number.same_iff]
  | .string text, w => by cases w <;> simp [same, canonical]
  | .array items, w => by
    cases w with
    | array items' => rw [same, canonical, canonical, Value.array.injEq, sameItems_iff]
    | _ => simp [same, canonical]
  | .object members, w => by
    cases w with
    | object members' => rw [same, canonical, canonical, Value.object.injEq, sameMembers_iff]
    | _ => simp [same, canonical]

theorem sameItems_iff : ∀ items others : List Value,
    sameItems items others = true ↔ canonicalItems items = canonicalItems others
  | [], others => by cases others <;> simp [sameItems, canonicalItems]
  | item :: rest, others => by
    cases others with
    | nil => simp [sameItems, canonicalItems]
    | cons other others =>
      rw [sameItems, Bool.and_eq_true, same_iff item other, sameItems_iff rest others,
        canonicalItems, canonicalItems, List.cons.injEq]

theorem sameMembers_iff : ∀ members others : List (String × Value),
    sameMembers members others = true ↔ canonicalMembers members = canonicalMembers others
  | [], others => by cases others <;> simp [sameMembers, canonicalMembers]
  | (name, value) :: rest, others => by
    cases others with
    | nil => simp [sameMembers, canonicalMembers]
    | cons other others =>
      obtain ⟨name', value'⟩ := other
      rw [sameMembers, Bool.and_eq_true, Bool.and_eq_true, beq_iff_eq, same_iff value value',
        sameMembers_iff rest others, canonicalMembers, canonicalMembers, List.cons.injEq,
        Prod.mk.injEq]

end

end Value

end RankedRules
