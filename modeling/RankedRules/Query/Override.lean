/-
Overrides: values that are given with a query.

An override is a key, an equals sign and a value. The value is written like the right side of an
assignment, but a word that would be a key path there is the text of a string here.

* `Override` — a key and a value;
* `Override.parse` — the override that a text is.
-/
import RankedRules.Failure
import RankedRules.Rule.RightSide

namespace RankedRules

/-- A key path and the value to store there. -/
structure Override where
  key : String
  value : Value

namespace Override

/-- The value that a text stands for under a key. -/
def value? (key : String) (text : List Char) : Except Failure Value :=
  match RightSide.parse text with
  | .ok (.literal value) => .ok value
  | .ok (.path word) => .ok (.string word)
  | .error (.invalidKeyPath text) => .ok (.string text)
  | .error error => .error ⟨["parse value for '" ++ key ++ "'"], .parsing error⟩

/-- The override that a text is. -/
def parse (text : String) : Except Failure Override :=
  let cs := text.toList
  match cs.dropWhile (· ≠ '=') with
  | [] => .error (.because ("override '" ++ text ++ "' must look like KEY=VALUE"))
  | _ :: right =>
    match Text.trim (cs.takeWhile (· ≠ '=')) with
    | [] => .error (.because ("override '" ++ text ++ "' has an empty key"))
    | key => do
      let key := String.ofList key
      .ok ⟨key, ← value? key right⟩

/-- The overrides that several texts are. -/
def parseAll : List String → Except Failure (List Override)
  | [] => .ok []
  | text :: rest => do
    let first ← parse text
    let others ← parseAll rest
    .ok (first :: others)

end Override

end RankedRules
