/-
Qualifiers: reading their texts.

A disjunction is conjunctions with `OR` between them, a conjunction is negations with `AND`
between them, and a negation is any number of `NOT` in front of a condition: an expression in
parentheses, one of the constants `*true*` and `*false*`, or a key path, an operator and an
operand. The three words are read in any case and only as whole words. Members of one chain become
members of one compound, and a chain of one member is that member.

* `Qualifier.Cause` — what can be wrong, `Cause.text` in words;
* `Qualifier.isKeyChar`, `Qualifier.keyword?`, `Qualifier.keyPath` — words and key paths;
* `Qualifier.operator`, `Qualifier.operand`, `Qualifier.comparison` — a single condition;
* `Qualifier.chain`, `Qualifier.negation`, `Qualifier.expression` — combinations, nested up to a
  depth;
* `Qualifier.parse` — the qualifier that a whole text is.
-/
import RankedRules.Qualifier.Basic
import RankedRules.Text.Alphanumeric
import RankedRules.Text.Reader

namespace RankedRules.Qualifier

/-- What can be wrong in the text of a qualifier. -/
inductive Cause
  | expectedClosing
  | expectedKeyPath
  | malformedKeyPath
  | expectedOperator
  | expectedValue
  | unterminatedString
  | invalidNumber
  | trailing
  deriving DecidableEq

/-- The cause in words. -/
def Cause.text : Cause → String
  | .expectedClosing => "expected ')'"
  | .expectedKeyPath => "expected key path"
  | .malformedKeyPath => "malformed key path"
  | .expectedOperator => "expected comparison operator"
  | .expectedValue => "expected value"
  | .unterminatedString => "unterminated string"
  | .invalidNumber => "invalid number"
  | .trailing => "unexpected trailing input"

/-- A character of key paths and words. -/
def isKeyChar (c : Char) : Bool :=
  Text.isAlphanumeric c || c = '_' || c = '.' || c = '@' || c = '$'

/-- What follows a word at the start of a text, in any case, if the word ends there. -/
def afterWord? : List Char → List Char → Option (List Char)
  | [], rest => if (rest.head?.map isKeyChar).getD false then none else some rest
  | w :: word, c :: rest => if c.toUpper = w then afterWord? word rest else none
  | _ :: _, [] => none

/-- What follows a word that comes next behind blanks. -/
def keyword? (word : String) (cs : List Char) : Option (List Char) :=
  afterWord? word.toList (Text.trimStart cs)

/-- Two points one after the other. -/
def hasEmptySegment : List Char → Bool
  | '.' :: '.' :: _ => true
  | _ :: rest => hasEmptySegment rest
  | [] => false

/-- A run of key characters without an empty segment. -/
def keyPath : Reader Cause String := fun cs =>
  let cs := Text.trimStart cs
  match cs.takeWhile isKeyChar with
  | [] => .error ⟨.expectedKeyPath, cs⟩
  | key =>
    if key.head? = some '.' ∨ key.getLast? = some '.' ∨ hasEmptySegment key then
      .error ⟨.malformedKeyPath, cs⟩
    else
      .ok (String.ofList key, cs.dropWhile isKeyChar)

/-- One of the signs that operators are made of. -/
def isOperatorSign (c : Char) : Bool :=
  c = '=' || c = '!' || c = '<' || c = '>'

/-- A comparison operator: one or two signs, or a word. -/
def operator : Reader Cause Operator := fun cs =>
  let cs := Text.trimStart cs
  let token :=
    match (cs.takeWhile isOperatorSign).take 2 with
    | [] => cs.takeWhile fun c => c.isAlpha || c = ':'
    | signs => signs
  match Operator.ofToken? (String.ofList token) with
  | some op => .ok (op, cs.drop token.length)
  | none => .error ⟨.expectedOperator, cs⟩

/-- The right side of a comparison. -/
inductive Operand
  | literal (value : Value)
  | path (path : String)

/-- The characters up to the closing quote and the rest behind it. A backslash keeps the character
behind it as it is. -/
def quotedChars? (quote : Char) : List Char → Option (List Char × List Char)
  | [] => none
  | '\\' :: [] => none
  | '\\' :: c :: rest => (quotedChars? quote rest).map fun (chars, rest) => (c :: chars, rest)
  | c :: rest =>
    if c = quote then some ([], rest)
    else (quotedChars? quote rest).map fun (chars, rest) => (c :: chars, rest)

/-- The digits and points of a number, behind a minus sign or not. -/
def numberChars : List Char → List Char
  | '-' :: rest => '-' :: rest.takeWhile fun c => c.isDigit || c = '.'
  | cs => cs.takeWhile fun c => c.isDigit || c = '.'

/-- What a bare word means as an operand. -/
def wordOperand : String → Operand
  | "true" | "YES" => .literal (.bool true)
  | "false" | "NO" => .literal (.bool false)
  | "null" | "nil" => .literal .null
  | word => .path word

/-- The right side of a comparison: a string, a number, a constant or a key path. -/
def operand : Reader Cause Operand := fun cs =>
  match Text.trimStart cs with
  | [] => .error ⟨.expectedValue, []⟩
  | c :: rest =>
    if c = '"' ∨ c = '\'' then
      match quotedChars? c rest with
      | some (chars, rest) => .ok (.literal (.string (String.ofList chars)), rest)
      | none => .error ⟨.unterminatedString, c :: rest⟩
    else if c.isDigit ∨ c = '-' then
      let token := numberChars (c :: rest)
      match Number.ofChars? token with
      | some n => .ok (.literal (.number n), (c :: rest).drop token.length)
      | none => .error ⟨.invalidNumber, c :: rest⟩
    else do
      let (word, rest) ← keyPath (c :: rest)
      .ok (wordOperand word, rest)

/-- A key path, an operator and an operand. -/
def comparison : Reader Cause Qualifier := fun cs => do
  let (left, rest) ← keyPath cs
  let (op, rest) ← operator rest
  let (right, rest) ← operand rest
  match right with
  | .literal value => .ok (.compare left op value, rest)
  | .path right => .ok (.compareKeys left op right, rest)

/-- What follows `front` at the start of a text. -/
def after? (front : String) (cs : List Char) : Option (List Char) :=
  if front.toList.isPrefixOf cs then some (cs.drop front.length) else none

/-- A single condition or an expression in parentheses, which `nested` reads. -/
def primary (nested : Reader Cause Qualifier) : Reader Cause Qualifier := fun cs =>
  match Text.trimStart cs with
  | '(' :: rest => do
    let (inner, rest) ← nested rest
    match Text.trimStart rest with
    | ')' :: rest => .ok (inner, rest)
    | rest => .error ⟨.expectedClosing, rest⟩
  | cs =>
    match after? "*true*" cs, after? "*false*" cs with
    | some rest, _ => .ok (.constant true, rest)
    | none, some rest => .ok (.constant false, rest)
    | none, none => comparison cs

/-- An item behind any number of `NOT`, at most as many as `fuel`. -/
def negation (item : Reader Cause Qualifier) : Nat → Reader Cause Qualifier
  | 0, cs => item cs
  | fuel + 1, cs =>
    match keyword? "NOT" cs with
    | some rest => do
      let (inner, rest) ← negation item fuel rest
      .ok (.not inner, rest)
    | none => item cs

/-- Items with a word between them, at most one more of them than `fuel`. -/
def chain (word : String) (item : Reader Cause Qualifier) : Nat → Reader Cause (List Qualifier)
  | 0, cs => do
    let (last, rest) ← item cs
    .ok ([last], rest)
  | fuel + 1, cs => do
    let (first, rest) ← item cs
    match keyword? word rest with
    | some rest => do
      let (others, rest) ← chain word item fuel rest
      .ok (first :: others, rest)
    | none => .ok ([first], rest)

/-- The members of a chain as one qualifier. -/
def combine (connective : Connective) : List Qualifier → Qualifier
  | [member] => member
  | members => .compound connective members

/-- A chain of items as one qualifier. Every item and every word takes at least one character, so
the length of the text is a bound of their number. -/
def combination (connective : Connective) (item : Reader Cause Qualifier) :
    Reader Cause Qualifier := fun cs => do
  let (members, rest) ← chain connective.word item cs.length cs
  .ok (combine connective members, rest)

/-- A qualifier whose parentheses are nested at most as deep as `fuel`. -/
def expression : Nat → Reader Cause Qualifier
  | 0, cs => .error ⟨.expectedKeyPath, cs⟩
  | fuel + 1, cs =>
    let item : Reader Cause Qualifier := fun cs => negation (primary (expression fuel)) cs.length cs
    combination .any (combination .all item) cs

/-- The qualifier that a whole text is. -/
def parse (cs : List Char) : Except (Fault Cause) Qualifier :=
  Reader.whole (expression (cs.length + 1)) Text.trimStart .trailing cs

end RankedRules.Qualifier
