/-
Comparison operators.

An operator compares two values, each of which may be missing. A missing value and null are the
same to all operators. Numbers are compared as doubles and strings by code points; values of
other kinds can be equal but not in order. `like` and `ilike` match the text of a string or number
with a wildcard pattern.

* `Operator` — the type, `Operator.ofToken?` and `Operator.symbol` its spellings;
* `Operator.order?` — the order of two values, if they have one;
* `Operator.valuesEqual` — equality of two values;
* `Operator.compare` — the result of an operator.
-/
import RankedRules.Value.Basic
import RankedRules.Wildcard

namespace RankedRules

/-- The ways to compare two values. -/
inductive Operator
  | equal
  | notEqual
  | less
  | greater
  | lessOrEqual
  | greaterOrEqual
  | like
  | likeFolded
  deriving DecidableEq

namespace Operator

/-- The operator that a token denotes. Words are read in any case. -/
def ofToken? (token : String) : Option Operator :=
  match token with
  | "=" | "==" => some .equal
  | "!=" | "<>" | "><" => some .notEqual
  | "<" => some .less
  | ">" => some .greater
  | "<=" | "=<" => some .lessOrEqual
  | ">=" | "=>" => some .greaterOrEqual
  | _ =>
    match String.ofList (token.toList.map Char.toLower) with
    | "like" => some .like
    | "ilike" | "caseinsensitivelike" | "caseinsensitivelike:" => some .likeFolded
    | _ => none

/-- The token that an operator is written as. -/
def symbol : Operator → String
  | .equal => "="
  | .notEqual => "!="
  | .less => "<"
  | .greater => ">"
  | .lessOrEqual => "<="
  | .greaterOrEqual => ">="
  | .like => "like"
  | .likeFolded => "ilike"

/-- The order of two numbers, as the order of the nearest doubles. -/
def orderOfNumbers (m n : Number) : Ordering :=
  compareOfLessAndEq m.rank n.rank

/-- The order of two strings, by code points. -/
def orderOfStrings (s t : String) : Ordering :=
  compareOfLessAndEq s t

/-- The order of two values: only two numbers or two strings have one. -/
def order? : Option Value → Option Value → Option Ordering
  | some (.number m), some (.number n) => some (orderOfNumbers m n)
  | some (.string s), some (.string t) => some (orderOfStrings s t)
  | _, _ => none

/-- Equality of two values that may be missing. -/
def valuesEqual (left right : Option Value) : Bool :=
  match left.bind Value.present, right.bind Value.present with
  | none, none => true
  | some (.number m), some (.number n) => m.rank == n.rank
  | some l, some r => l.same r
  | _, _ => false

/-- The text that a wildcard pattern is matched with. -/
def subject? : Value → Option String
  | .string text => some text
  | .number n => some n.text
  | _ => none

/-- Whether a value has a form that a pattern describes. -/
def matchesPattern (accepts : String → String → Bool) (left right : Option Value) : Bool :=
  match left.bind subject?, right with
  | some subject, some (.string pattern) => accepts pattern subject
  | _, _ => false

/-- The result of an operator on two values that may be missing. -/
def compare (op : Operator) (left right : Option Value) : Bool :=
  match op with
  | .equal => valuesEqual left right
  | .notEqual => !valuesEqual left right
  | .less => order? left right == some .lt
  | .greater => order? left right == some .gt
  | .lessOrEqual => order? left right == some .lt || order? left right == some .eq
  | .greaterOrEqual => order? left right == some .gt || order? left right == some .eq
  | .like => matchesPattern Wildcard.accepts left right
  | .likeFolded => matchesPattern Wildcard.acceptsFolded left right

/-- The symbol of an operator denotes it. -/
theorem ofToken?_symbol (op : Operator) : ofToken? op.symbol = some op := by
  cases op <;> decide

end Operator

end RankedRules
