/-
Priorities: a number or one of a few names.

* `Priority.normal` — the priority of a rule that names none;
* `Priority.named?` — the names;
* `Priority.parse` — the priority that a text is; what is neither a name nor a number of 32 bits
  is the normal priority.
-/
import RankedRules.Number.Basic
import RankedRules.Text.Blank

namespace RankedRules.Priority

/-- The priority of a rule that names none. -/
def normal : Int := 100

/-- The priorities that have names. -/
def named? : String → Option Int
  | "important" => some 1000
  | "very high" => some 200
  | "high" => some 150
  | "normal" | "default" => some normal
  | "low" => some 50
  | "very low" => some 5
  | "fallback" => some 0
  | _ => none

/-- The integers of 32 bits with a sign. -/
def isSigned32 (n : Int) : Bool :=
  -0x80000000 ≤ n && n < 0x80000000

/-- The priority that a text is. -/
def parse (text : List Char) : Int :=
  let text := Text.trim text
  if (text.head?.map fun c => c.isDigit || c = '-').getD false then
    ((Decimal.integer? text).filter isSigned32).getD normal
  else
    (named? (String.ofList text)).getD normal

end RankedRules.Priority
