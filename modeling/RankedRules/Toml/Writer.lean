/-
TOML documents in a clear layout.

The entries of a table are written under its header, those that are tables themselves under
headers of their own behind it. A list of two or more items has one item in a line. A blank line
stands before every header. A table that has nothing but tables below it needs no header, but an
empty one has one.

* `Toml.quote` — a string, in the plainest quotes that hold it;
* `Toml.name` — a name, in quotes if it needs them;
* `Toml.inlineText` — a value behind an equals sign;
* `Toml.Section`, `Toml.sectionsOf` — the tables of a document with their headers and bodies;
* `Toml.documentText` — the text of a document.
-/
import RankedRules.Text.Pieces
import RankedRules.Toml.Statement

namespace RankedRules.Toml

/-! ## Strings and names -/

/-- A control character that no kind of quotes holds as it is. -/
def needsCode (c : Char) : Bool :=
  (c.toNat < 0x20 && c != '\t' && c != '\n') || c.toNat == 0x7f

/-- The longest run of a character. -/
def longestRun (wanted : Char) (cs : List Char) : Nat :=
  let (_, longest) := cs.foldl
    (fun (run, longest) c =>
      let run := if c = wanted then run + 1 else 0
      (run, max run longest)) (0, 0)
  longest

/-- A character in double quotes. -/
def escapeChar (c : Char) : List Char :=
  if c = '\x08' then ['\\', 'b']
  else if c = '\t' then ['\\', 't']
  else if c = '\n' then ['\\', 'n']
  else if c = '\x0c' then ['\\', 'f']
  else if c = '\r' then ['\\', 'r']
  else if c = '"' then ['\\', '"']
  else if c = '\\' then ['\\', '\\']
  else if needsCode c then
    ['\\', 'u', '0', '0', Nat.digitChar (c.toNat / 16), (Nat.digitChar (c.toNat % 16)).toUpper]
  else [c]

/-- Characters between three double quotes: line ends stay, and of a run of double quotes every
third one is escaped. -/
def escapeLines : Nat → List Char → List Char
  | _, [] => []
  | run, c :: rest =>
    if c = '"' then
      if run = 2 then '\\' :: '"' :: escapeLines 0 rest else '"' :: escapeLines (run + 1) rest
    else
      (if c = '\n' then ['\n'] else escapeChar c) ++ escapeLines 0 rest

/-- A string of one line in double quotes. -/
def basicText (cs : List Char) : List Char :=
  '"' :: cs.flatMap escapeChar ++ ['"']

/-- A string in the plainest quotes that hold it: double quotes if nothing needs an escape, then
single quotes, then three double or three single quotes, then double quotes with escapes. A string
of several lines starts in the line behind its opening quotes. -/
def quote (text : String) : List Char :=
  let cs := text.toList
  let code := cs.any needsCode
  let backslash := cs.contains '\\'
  let newline := cs.contains '\n'
  let double := longestRun '"' cs
  let single := longestRun '\'' cs
  let start := if newline then ['\n'] else []
  let lines (cs : List Char) : List Char :=
    "\"\"\"".toList ++ start ++ escapeLines 0 cs ++ "\"\"\"".toList
  if !code && !backslash && double = 0 && !newline then basicText cs
  else if !code && single = 0 && !newline then '\'' :: cs ++ ['\'']
  else if !code && !backslash && double ≤ 2 then lines cs
  else if !code && single ≤ 2 then "'''".toList ++ start ++ cs ++ "'''".toList
  else if newline then lines cs
  else basicText cs

/-- A name: bare if it can be, else in quotes. -/
def name (text : String) : List Char :=
  let cs := text.toList
  let code := cs.any needsCode || cs.contains '\n'
  if !cs.isEmpty && cs.all isBareChar then cs
  else if !code && !cs.contains '\\' && !cs.contains '"' then basicText cs
  else if !code && !cs.contains '\'' then '\'' :: cs ++ ['\'']
  else basicText cs

/-! ## Values -/

/-- A float in its fewest digits, all at their places. A tie goes away from zero. -/
def floatText : Option Double → List Char
  | some x => ((x.shortest .away).stripZeros 17).positional
  | none => "nan".toList

mutual

/-- A value behind an equals sign or in a list. -/
def inlineText : Toml → List Char
  | .string text => quote text
  | .integer n => Number.integerChars n
  | .float x => floatText x
  | .unreadable => "nan".toList
  | .boolean holds => (if holds then "true" else "false").toList
  | .datetime text => text.toList
  | .array items =>
    if 2 ≤ items.length then '[' :: '\n' :: itemLines items ++ [']']
    else '[' :: Text.joinWith ", ".toList (itemTexts items) ++ [']']
  | .table [] => "\x7b\x7d".toList
  | .table members =>
    "\x7b ".toList ++ Text.joinWith ", ".toList (memberTexts members) ++ " \x7d".toList

/-- The items of a list, each in its line. -/
def itemLines : List Toml → List Char
  | [] => []
  | item :: rest => "    ".toList ++ inlineText item ++ ",\n".toList ++ itemLines rest

/-- The texts of the items of a list. -/
def itemTexts : List Toml → List (List Char)
  | [] => []
  | item :: rest => inlineText item :: itemTexts rest

/-- The texts of the members of an inline table. -/
def memberTexts : List (String × Toml) → List (List Char)
  | [] => []
  | (key, item) :: rest => (name key ++ " = ".toList ++ inlineText item) :: memberTexts rest

end

/-! ## Tables with headers -/

def isTable : Toml → Bool
  | .table _ => true
  | _ => false

/-- A value that is written under headers: a table, or a list of nothing but tables. -/
def hasHeader : Toml → Bool
  | .table _ => true
  | .array items => !items.isEmpty && items.all isTable
  | _ => false

/-- A header and what stands under it. -/
structure Section where
  path : List String
  isElement : Bool
  body : List Char
  hasBelow : Bool

/-- Whether a table needs its header. The outermost table has none, and is written if something
stands in it. -/
def Section.isNeeded (s : Section) : Bool :=
  if s.path.isEmpty then !s.body.isEmpty
  else s.isElement || !s.hasBelow || !s.body.isEmpty

/-- The entries of a table that stand under its own header. -/
def bodyText (members : List (String × Toml)) : List Char :=
  (members.filter fun member => !hasHeader member.2).flatMap fun (key, value) =>
    name key ++ " = ".toList ++ inlineText value ++ ['\n']

mutual

/-- The sections of a value under a path, none for a value without a header. -/
def sectionsOf (path : List String) : Toml → List Section
  | .table members =>
    ⟨path, false, bodyText members, members.any fun member => hasHeader member.2⟩ ::
      sectionsBelow path members
  | .array items => sectionsOfItems path (!items.isEmpty && items.all isTable) items
  | _ => []

/-- The sections of the elements of an array of tables. -/
def sectionsOfItems (path : List String) (isTables : Bool) : List Toml → List Section
  | .table members :: rest =>
    (if isTables then
      ⟨path, true, bodyText members, members.any fun member => hasHeader member.2⟩ ::
        sectionsBelow path members
    else []) ++ sectionsOfItems path isTables rest
  | _ :: rest => sectionsOfItems path isTables rest
  | [] => []

/-- The sections of the members of a table. -/
def sectionsBelow (path : List String) : List (String × Toml) → List Section
  | [] => []
  | (key, value) :: rest => sectionsOf (path ++ [key]) value ++ sectionsBelow path rest

end

/-- The header of a section with its body. -/
def Section.text (s : Section) : List Char :=
  let names := Text.joinWith ['.'] (s.path.map name)
  let header :=
    if s.path.isEmpty then []
    else if s.isElement then "[[".toList ++ names ++ "]]\n".toList
    else '[' :: names ++ "]\n".toList
  header ++ s.body

/-- The text of a document. -/
def documentText (members : List (String × Toml)) : List Char :=
  Text.joinWith ['\n'] (((sectionsOf [] (.table members)).filter Section.isNeeded).map Section.text)

end RankedRules.Toml
