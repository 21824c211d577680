/-
Rule files: one rule in a line.

Blank lines and lines that begin with a hash or two slashes are skipped. A line that cannot be
read as a rule is skipped too, unless the file is read strictly.

* `RuleFile.isRule` — whether a line is to be read as a rule;
* `RuleFile.loadLines`, `RuleFile.load` — the rules of numbered lines, and of a text.
-/
import RankedRules.Failure
import RankedRules.Rule.Parser

namespace RankedRules.RuleFile

/-- Whether a trimmed line is neither blank nor a comment. -/
def isRule : List Char → Bool
  | [] => false
  | '#' :: _ => false
  | '/' :: '/' :: _ => false
  | _ => true

/-- The failure of a line that cannot be read. -/
def badLine (number : Nat) (line : List Char) : Failure :=
  .because ("line " ++ toString number ++ ": could not parse rule '" ++ String.ofList line ++ "'")

/-- The rules of lines, the first of which has a number. -/
def loadLines (strict : Bool) : Nat → List (List Char) → Except Failure (List Rule)
  | _, [] => .ok []
  | number, line :: rest =>
    let line := Text.trim line
    if isRule line then
      match Rule.parse line with
      | .ok rule => do
        let rules ← loadLines strict (number + 1) rest
        .ok (rule :: rules)
      | .error _ =>
        if strict then .error (badLine number line) else loadLines strict (number + 1) rest
    else
      loadLines strict (number + 1) rest

/-- The rules of a text. -/
def load (strict : Bool) (text : List Char) : Except Failure (List Rule) :=
  loadLines strict 1 (Text.lines text)

end RankedRules.RuleFile
