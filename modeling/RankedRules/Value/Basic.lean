/-
Values of rules.

A value is what a rule assigns and what a query returns: null, a truth value, a number, a string,
a list of values or an object of named values. Null stands for "nothing": a look-up never
returns it.

* `Value` — the type;
* `Value.same` — equality as values, also the `==` of the type: numbers are compared inside
  their kind, so `1` and `1.0` differ while the two zeros among the doubles do not;
* `Value.present` — a value unless it is null.
-/
import RankedRules.Entries
import RankedRules.Number.Basic

namespace RankedRules

/-- A value that a rule assigns, that is stored, or that a query returns. -/
inductive Value
  | null
  | bool (holds : Bool)
  | number (number : Number)
  | string (text : String)
  | array (items : List Value)
  | object (members : List (String × Value))

namespace Value

instance : Inhabited Value := ⟨.null⟩

/-- An integer as a value. -/
def ofInt (n : Int) : Value := .number (.integer n)

def isNull : Value → Bool
  | .null => true
  | _ => false

/-- A value, or nothing for null. -/
def present (v : Value) : Option Value :=
  if v.isNull then none else some v

mutual

/-- Equality as values. -/
def same : Value → Value → Bool
  | .null, .null => true
  | .bool a, .bool b => a == b
  | .number a, .number b => a.same b
  | .string a, .string b => a == b
  | .array a, .array b => sameItems a b
  | .object a, .object b => sameMembers a b
  | _, _ => false

/-- Equality of lists of values, item by item. -/
def sameItems : List Value → List Value → Bool
  | [], [] => true
  | a :: as, b :: bs => same a b && sameItems as bs
  | _, _ => false

/-- Equality of objects, member by member. -/
def sameMembers : List (String × Value) → List (String × Value) → Bool
  | [], [] => true
  | (m, a) :: as, (n, b) :: bs => m == n && same a b && sameMembers as bs
  | _, _ => false

end

instance : BEq Value := ⟨same⟩

mutual

theorem same_refl : ∀ v : Value, v.same v = true
  | .null => rfl
  | .bool _ => by rw [same, beq_self_eq_true]
  | .number n => by rw [same, n.same_refl]
  | .string _ => by rw [same, beq_self_eq_true]
  | .array items => by rw [same, sameItems_refl items]
  | .object members => by rw [same, sameMembers_refl members]

theorem sameItems_refl : ∀ items : List Value, sameItems items items = true
  | [] => rfl
  | item :: rest => by rw [sameItems, same_refl item, sameItems_refl rest, Bool.and_self]

theorem sameMembers_refl : ∀ members : List (String × Value), sameMembers members members = true
  | [] => rfl
  | (name, v) :: rest => by
    rw [sameMembers, beq_self_eq_true, same_refl v, sameMembers_refl rest, Bool.and_self,
      Bool.and_self]

end

theorem present_eq_some_iff {v w : Value} : v.present = some w ↔ v = w ∧ w.isNull = false := by
  rw [present]
  split <;> grind

@[simp] theorem present_null : present .null = none := rfl

end Value

end RankedRules
