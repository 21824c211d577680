/-
Readers: functions from a text to a value and the rest of the text.

All readers of the library work on the list of characters that are left. A reader that fails says
what is wrong and keeps the rest at which it noticed, from which the position is computed at the
very end.

* `Fault` — a cause and the rest of the text at which it was noticed;
* `Reader` — the type of the functions;
* `Fault.offset` — the position of a fault in the text that was read;
* `Reader.whole` — a reader for a whole text, with nothing left behind it.
-/
import RankedRules.Text.Size

namespace RankedRules

/-- What is wrong in a text, and the rest of the text that begins there. -/
structure Fault (ε : Type) where
  cause : ε
  rest : List Char

/-- A function from what is left of a text to a value and what is left behind it. -/
abbrev Reader (ε α : Type) := List Char → Except (Fault ε) (α × List Char)

variable {ε α : Type}

/-- The position of a fault, in bytes. -/
def Fault.offset (whole : List Char) (fault : Fault ε) : Nat :=
  Text.offsetIn whole fault.rest

/-- The value that a whole text is: after it and what `skip` passes over, nothing may be left. -/
def Reader.whole (read : Reader ε α) (skip : List Char → List Char) (trailing : ε)
    (text : List Char) : Except (Fault ε) α := do
  let (value, rest) ← read text
  match skip rest with
  | [] => .ok value
  | rest => .error ⟨trailing, rest⟩

end RankedRules
