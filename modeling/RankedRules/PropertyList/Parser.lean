/-
Property lists: reading them.

Blanks and comments may stand between any two tokens. A comment runs from two slashes to the end
of the line, or from a slash and a star to a star and a slash. A word without quotes is a number
if it can be read as one, and a string otherwise. The last semicolon of an object and a comma
behind the last item of a list may be there or not.

* `PropertyList.Cause` — what can be wrong, `Cause.text` in words;
* `PropertyList.skip` — blanks and comments;
* `PropertyList.quoted`, `PropertyList.word` — the two kinds of strings;
* `PropertyList.value` — a value, with lists and objects nested up to a depth;
* `PropertyList.parse` — the value that a whole text is.
-/
import RankedRules.Text.Blank
import RankedRules.Text.Reader
import RankedRules.Value.Basic

namespace RankedRules.PropertyList

/-- What can be wrong in a property list. -/
inductive Cause
  | trailing
  | endOfInput
  | expected (c : Char)
  | unterminatedDictionary
  | dictionarySeparator
  | arraySeparator
  | unterminatedString
  | expectedValue
  deriving DecidableEq

/-- The cause in words. -/
def Cause.text : Cause → String
  | .trailing => "unexpected trailing characters"
  | .endOfInput => "unexpected end of input"
  | .expected c => "expected '" ++ String.singleton c ++ "'"
  | .unterminatedDictionary => "unterminated dictionary"
  | .dictionarySeparator => "expected ';' or '\x7d' in dictionary"
  | .arraySeparator => "expected ',' or ')' in array"
  | .unterminatedString => "unterminated string"
  | .expectedValue => "expected value"

mutual

/-- What follows the blanks and comments that a text starts with. -/
def skip : List Char → List Char
  | '/' :: '/' :: rest => skipLine rest
  | '/' :: '*' :: rest => skipBlock rest
  | c :: rest => if Text.isBlank c then skip rest else c :: rest
  | [] => []

/-- The same, from inside a comment that the line ends. -/
def skipLine : List Char → List Char
  | '\n' :: rest => skip rest
  | _ :: rest => skipLine rest
  | [] => []

/-- The same, from inside a comment that a star and a slash end. -/
def skipBlock : List Char → List Char
  | '*' :: '/' :: rest => skip rest
  | _ :: rest => skipBlock rest
  | [] => []

end

/-- The character that an escape stands for. -/
def unescape : Char → Char
  | 'n' => '\n'
  | 't' => '\t'
  | 'r' => '\r'
  | c => c

/-- The characters up to the closing quote. A backslash keeps the next character from closing. -/
def quotedChars (quote : Char) : Reader Cause (List Char)
  | [] => .error ⟨.unterminatedString, []⟩
  | '\\' :: [] => .error ⟨.unterminatedString, []⟩
  | '\\' :: c :: rest => do
    let (chars, rest) ← quotedChars quote rest
    .ok (unescape c :: chars, rest)
  | c :: rest =>
    if c = quote then
      .ok ([], rest)
    else do
      let (chars, rest) ← quotedChars quote rest
      .ok (c :: chars, rest)

/-- A string up to its closing quote. -/
def quoted (quote : Char) : Reader Cause String := fun cs => do
  let (chars, rest) ← quotedChars quote cs
  .ok (String.ofList chars, rest)

/-- A character that can be part of a word without quotes. -/
def isWordChar (c : Char) : Bool :=
  !Text.isBlank c && !(['\x7b', '\x7d', '(', ')', '=', ';', ',', '"', '\''].contains c)

/-- A word without quotes. -/
def word : Reader Cause (List Char) := fun cs =>
  match cs.takeWhile isWordChar with
  | [] => .error ⟨.expectedValue, cs⟩
  | chars => .ok (chars, cs.dropWhile isWordChar)

/-- The value of a word: a number if it is one, else a string. -/
def wordValue (chars : List Char) : Value :=
  match Number.ofChars? chars with
  | some n => .number n
  | none => .string (String.ofList chars)

/-- A certain character, behind blanks and comments. -/
def expect (expected : Char) (cs : List Char) : Except (Fault Cause) (List Char) :=
  match skip cs with
  | [] => .error ⟨.expected expected, []⟩
  | c :: rest => if c = expected then .ok rest else .error ⟨.expected expected, c :: rest⟩

/-- The items of a list and its closing parenthesis, at most as many items as `fuel`. -/
def items (item : Reader Cause Value) : Nat → Reader Cause (List Value)
  | 0, cs => .error ⟨.arraySeparator, cs⟩
  | fuel + 1, cs =>
    match skip cs with
    | ')' :: rest => .ok ([], rest)
    | cs => do
      let (value, rest) ← item cs
      match skip rest with
      | ',' :: rest => do
        let (values, rest) ← items item fuel rest
        .ok (value :: values, rest)
      | ')' :: rest => .ok ([value], rest)
      | rest => .error ⟨.arraySeparator, rest⟩

/-- The name of a member. -/
def name : Reader Cause String
  | [] => .error ⟨.unterminatedDictionary, []⟩
  | c :: rest =>
    if c = '"' ∨ c = '\'' then
      quoted c rest
    else do
      let (chars, rest) ← word (c :: rest)
      .ok (String.ofList chars, rest)

/-- The members of an object and its closing brace, at most as many members as `fuel`. -/
def members (item : Reader Cause Value) : Nat → Reader Cause (List (String × Value))
  | 0, cs => .error ⟨.dictionarySeparator, cs⟩
  | fuel + 1, cs =>
    match skip cs with
    | '\x7d' :: rest => .ok ([], rest)
    | cs => do
      let (name, rest) ← name cs
      let (value, rest) ← item (← expect '=' rest)
      match skip rest with
      | ';' :: rest => do
        let (pairs, rest) ← members item fuel rest
        .ok ((name, value) :: pairs, rest)
      | '\x7d' :: rest => .ok ([(name, value)], rest)
      | rest => .error ⟨.dictionarySeparator, rest⟩

/-- A value whose lists and objects are nested at most as deep as `fuel`. -/
def value : Nat → Reader Cause Value
  | 0, cs => .error ⟨.endOfInput, cs⟩
  | fuel + 1, cs =>
    match skip cs with
    | [] => .error ⟨.endOfInput, []⟩
    | c :: rest =>
      if c = '\x7b' then do
        let (pairs, rest) ← members (value fuel) (rest.length + 1) rest
        .ok (.object (Entries.ofList pairs), rest)
      else if c = '(' then do
        let (values, rest) ← items (value fuel) (rest.length + 1) rest
        .ok (.array values, rest)
      else if c = '"' ∨ c = '\'' then do
        let (text, rest) ← quoted c rest
        .ok (.string text, rest)
      else do
        let (chars, rest) ← word (c :: rest)
        .ok (wordValue chars, rest)

/-- The value that a whole text is. Each nested list or object takes a character of its own, so
the length of the text is a bound of the depth. -/
def parse (cs : List Char) : Except (Fault Cause) Value :=
  Reader.whole (value (cs.length + 1)) skip .trailing cs

end RankedRules.PropertyList
