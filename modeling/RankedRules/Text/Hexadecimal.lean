/-
Hexadecimal digits.

* `Text.hexDigit?` — the value of a digit, in either case;
* `Text.isHexDigit` — whether a character is one;
* `Text.hexValue` — the number that digits denote.
-/
namespace RankedRules.Text

/-- The value of a hexadecimal digit. -/
def hexDigit? (c : Char) : Option Nat :=
  if c.isDigit then some (c.toNat - '0'.toNat)
  else if 'a' ≤ c ∧ c ≤ 'f' then some (c.toNat - 'a'.toNat + 10)
  else if 'A' ≤ c ∧ c ≤ 'F' then some (c.toNat - 'A'.toNat + 10)
  else none

def isHexDigit (c : Char) : Bool :=
  (hexDigit? c).isSome

/-- The number that digits of a base denote, which is at most sixteen. -/
def valueInBase (base : Nat) (digits : List Char) : Nat :=
  digits.foldl (fun value c => base * value + (hexDigit? c).getD 0) 0

/-- The number that hexadecimal digits denote. -/
def hexValue (digits : List Char) : Nat :=
  valueInBase 16 digits

end RankedRules.Text
