/-
Values of TOML documents.

* `Toml` — the type; floats that are not finite are kept without their sign or kind;
* `Toml.value` — the rule value of a TOML value;
* `Toml.isWithin` — whether all numbers in a value can be read and its integers pass a test;
* `Toml.isWide` — the test for integers that nobody asks for;
* `Toml.same` — equality of TOML values, also their `==`.
-/
import RankedRules.Value.Basic

namespace RankedRules

/-- A value of a TOML document. Integers may have any size. What is written like a number may have
no value that could be read: a float that is too large, or an integer with wrong digits. -/
inductive Toml
  | string (text : String)
  | integer (value : Int)
  | float (value : Option Double)
  | unreadable
  | boolean (holds : Bool)
  | datetime (text : String)
  | array (items : List Toml)
  | table (members : List (String × Toml))

namespace Toml

instance : Inhabited Toml := ⟨.boolean false⟩

/-- The name under which a date or time is found in its rule value. -/
def datetimeName : String := "$__toml_private_datetime"

mutual

/-- The rule value of a TOML value. A number that is not finite or cannot be read is null, and a
date or time is an object with its text. -/
def value : Toml → Value
  | .string text => .string text
  | .integer n => .ofInt n
  | .float (some x) => .number (.double x)
  | .float none | .unreadable => .null
  | .boolean holds => .bool holds
  | .datetime text => .object [(datetimeName, .string text)]
  | .array items => .array (values items)
  | .table members => .object (memberValues members)

/-- The rule values of several TOML values. -/
def values : List Toml → List Value
  | [] => []
  | item :: rest => value item :: values rest

/-- The rule values of the members of a table. -/
def memberValues : List (String × Toml) → List (String × Value)
  | [] => []
  | (name, item) :: rest => (name, value item) :: memberValues rest

end

mutual

/-- Whether all numbers in a value can be read and its integers pass a test. -/
def isWithin (test : Int → Bool) : Toml → Bool
  | .integer n => test n
  | .unreadable => false
  | .array items => areWithin test items
  | .table members => membersWithin test members
  | _ => true

/-- Whether all numbers in several values can be read and the integers pass a test. -/
def areWithin (test : Int → Bool) : List Toml → Bool
  | [] => true
  | item :: rest => isWithin test item && areWithin test rest

/-- Whether all numbers in the members of a table can be read and the integers pass a test. -/
def membersWithin (test : Int → Bool) : List (String × Toml) → Bool
  | [] => true
  | (_, item) :: rest => isWithin test item && membersWithin test rest

end

/-- An integer of 128 bits, with or without a sign. -/
def isWide (n : Int) : Bool :=
  -170141183460469231731687303715884105728 ≤ n && n ≤ 340282366920938463463374607431768211455

mutual

/-- Equality of TOML values. A float that is not finite equals nothing. -/
def same : Toml → Toml → Bool
  | .string a, .string b => a == b
  | .integer a, .integer b => a == b
  | .float (some a), .float (some b) => a.same b
  | .boolean a, .boolean b => a == b
  | .datetime a, .datetime b => a == b
  | .array a, .array b => sameItems a b
  | .table a, .table b => sameMembers a b
  | _, _ => false

/-- Equality of lists of TOML values. -/
def sameItems : List Toml → List Toml → Bool
  | [], [] => true
  | a :: as, b :: bs => same a b && sameItems as bs
  | _, _ => false

/-- Equality of tables. -/
def sameMembers : List (String × Toml) → List (String × Toml) → Bool
  | [], [] => true
  | (m, a) :: as, (n, b) :: bs => m == n && same a b && sameMembers as bs
  | _, _ => false

end

instance : BEq Toml := ⟨same⟩

end Toml

end RankedRules
