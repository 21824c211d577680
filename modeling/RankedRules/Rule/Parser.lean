/-
Rules and actions: reading their texts.

A rule is a qualifier, an arrow, an assignment and, behind a semicolon, a priority. The arrow is
the first one outside quotes, and the semicolon the first one behind it outside quotes and
brackets. An assignment is a key, an equals sign and a right side; a class name in parentheses in
front of it says how the right side is to be taken.

* `Qualifier.parseText` — the qualifier of a rule;
* `Action.Form` — the two ways to force the reading of the right side;
* `Action.parse`, `Rule.parse` — the action or rule that a whole text is.
-/
import RankedRules.Rule.Basic
import RankedRules.Rule.Priority
import RankedRules.Rule.RightSide
import RankedRules.Text.Scan

namespace RankedRules

/-- The qualifier that a text is. -/
def Qualifier.parseChars (cs : List Char) : Except ParseError Qualifier :=
  match Qualifier.parse cs with
  | .ok qualifier => .ok qualifier
  | .error fault => .error (.qualifier (fault.offset cs) fault.cause)

/-- The qualifier that a text is without the blanks at its ends. -/
def Qualifier.parseText (text : List Char) : Except ParseError Qualifier :=
  Qualifier.parseChars (Text.trim text)

namespace Action

/-- How the right side of an assignment is to be taken: as the text of a string, or as a key
path. -/
inductive Form
  | constant
  | reference
  deriving DecidableEq

/-- The form that a class name stands for. -/
def Form.ofClass? (name : String) : Option Form :=
  match Text.trimmed name with
  | "Assignment" | "RuleAssignment" => some .constant
  | "KeyAssignment" | "RuleKeyAssignment" => some .reference
  | _ => none

/-- The class name in parentheses that a text starts with, if it does, and the rest. -/
def splitCast (text : List Char) : Except ParseError (Option String × List Char) :=
  match text with
  | '(' :: inner =>
    match inner.dropWhile (· ≠ ')') with
    | [] => .error (.unclosedTypeCast (String.ofList text))
    | _ :: rest =>
      .ok (some (String.ofList (inner.takeWhile (· ≠ ')'))), Text.trimStart rest)
  | _ => .ok (none, text)

/-- The key and the right side of an assignment, around the first equals sign outside quotes. -/
def splitAssignment (text : List Char) : Except ParseError (String × List Char) :=
  match Scan.cut? false ['='] text with
  | none => .error (.missingAssignment (String.ofList text))
  | some (front, rest) =>
    match Text.trim front with
    | [] => .error (.missingAssignment (String.ofList text))
    | key => .ok (String.ofList key, Text.trim (rest.drop 1))

/-- The assignment of a right side to a key, in a form that is given or found out. -/
def ofSides (form? : Option Form) (key : String) (right : List Char) :
    Except ParseError Action :=
  match form? with
  | some .constant => .ok (.assign key (.string (String.ofList right)))
  | some .reference => do
    .ok (.reference key (← RightSide.checkedPath (String.ofList right)))
  | none => do
    match ← RightSide.parse right with
    | .literal value => .ok (.assign key value)
    | .path path => .ok (.reference key path)

/-- The action that a text is. The class name applies if the text has none of its own. -/
def parse (text : List Char) (className : Option String) : Except ParseError Action := do
  let text := Text.trim text
  if text.isEmpty then .error (.missingAssignment "") else
    let (cast, text) ← splitCast text
    let form? := (cast.or className).bind Form.ofClass?
    let (key, right) ← splitAssignment text
    ofSides form? key right

end Action

namespace Rule

/-- The action and the priority behind an arrow. -/
def parseRight (text : List Char) : Except ParseError (Action × Int) := do
  let (action, priority) :=
    match Scan.cut? true [';'] text with
    | some (front, rest) => (front, Priority.parse (rest.drop 1))
    | none => (text, Priority.normal)
  .ok (← Action.parse action none, priority)

/-- The rule that a text is. An arrow does not count before the fourth byte. -/
def parse (text : List Char) : Except ParseError Rule :=
  if text.all Text.isBlank then
    .error .empty
  else
    match Scan.cut? false ['=', '>'] text with
    | none => .error (.missingArrow (String.ofList text))
    | some (front, rest) =>
      if Text.byteSize front < 3 then
        .error (.missingArrow (String.ofList text))
      else do
        let qualifier ← Qualifier.parseText front
        let (action, priority) ← parseRight (rest.drop 2)
        .ok ⟨some qualifier, some action, priority⟩

end Rule

end RankedRules
