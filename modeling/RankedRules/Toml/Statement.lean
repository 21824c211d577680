/-
TOML documents as a sequence of statements.

A line of a document is blank, the header of a table, the header of an element of an array of
tables, or a key with a value; a comment may follow. A key is a path of names with points between
them. Lists and inline tables may run over several lines and end with a comma. Neither a path nor
the nesting of lists and inline tables may be deeper than eighty.

* `Toml.Statement` — a header or an entry;
* `Toml.skipAll?` — white space, line ends and comments between items;
* `Toml.key?` — a path of names;
* `Toml.Inline` — a value as it is written, the entries of its tables not yet put together;
* `Toml.inline?` — a value, nested up to a depth;
* `Toml.statements?` — the statements of a document.
-/
import RankedRules.Toml.Quoted
import RankedRules.Toml.Scalar

namespace RankedRules.Toml

/-- A value as it is written: in its tables names may be paths, and may be repeated. -/
inductive Inline
  | atom (value : Toml)
  | list (items : List Inline)
  | entries (members : List (List String × Inline))

/-- A line of a document that says something: the header of a table or of an element of an array
of tables, or an entry. -/
inductive Statement
  | header (isElement : Bool) (path : List String)
  | entry (path : List String) (value : Inline)

/-- White space inside a line. -/
def skipSpace (cs : List Char) : List Char :=
  cs.dropWhile isLineSpace

/-- What follows a comment, if there is one. Its characters must be plain. -/
def skipComment (cs : List Char) : List Char :=
  match cs with
  | '#' :: rest => rest.dropWhile isPlain
  | _ => cs

/-- What follows white space, line ends and comments, at most as many lines as `fuel`. -/
def skipAllWithin? : Nat → List Char → Option (List Char)
  | 0, _ => none
  | fuel + 1, cs =>
    match skipComment (skipSpace cs) with
    | [] => some []
    | c :: rest =>
      match afterLineEnd? (c :: rest) with
      | some rest => skipAllWithin? fuel rest
      | none => if (skipSpace cs).head? = some '#' then none else some (c :: rest)

/-- What follows white space, line ends and comments. -/
def skipAll? (cs : List Char) : Option (List Char) :=
  skipAllWithin? (cs.length + 1) cs

/-- A character of names without quotes. -/
def isBareChar (c : Char) : Bool :=
  c.isAlphanum || c = '_' || c = '-'

/-- A name and the rest behind it. -/
def name? (cs : List Char) : Option (String × List Char) :=
  match cs.takeWhile isBareChar with
  | [] => quotedLine? cs
  | bare => some (String.ofList bare, cs.dropWhile isBareChar)

/-- The most names in a path, and the most lists and tables inside each other. -/
def depthLimit : Nat := 80

/-- Names with points between them, at most as many as `fuel`, and the rest behind them. White
space may stand around the points. -/
def keyWithin? : Nat → List Char → Option (List String × List Char)
  | 0, _ => none
  | fuel + 1, cs => do
    let (first, rest) ← name? (skipSpace cs)
    match skipSpace rest with
    | '.' :: rest => do
      let (others, rest) ← keyWithin? fuel rest
      some (first :: others, rest)
    | rest => some ([first], rest)

/-- A path of names, and the rest behind it and the white space that follows. -/
def key? (cs : List Char) : Option (List String × List Char) :=
  keyWithin? depthLimit cs

/-- A character that can be part of a value without quotes: none that separates values. -/
def isScalarChar (c : Char) : Bool :=
  !"=,[]\x7b\x7d# \t\r\n".toList.contains c

/-- Words with white space between them, at most as many as `fuel`, and the rest behind the last.
A word does not begin with a quote. -/
def wordsWithin : Nat → List Char → List Char × List Char
  | 0, cs => ([], cs)
  | fuel + 1, cs =>
    let word := cs.takeWhile isScalarChar
    let rest := cs.dropWhile isScalarChar
    let next := skipSpace rest
    if next.head?.any fun c => isScalarChar c && c != '"' && c != '\'' then
      let (words, rest') := wordsWithin fuel next
      (word ++ rest.takeWhile isLineSpace ++ words, rest')
    else
      (word, rest)

/-- The text of a value without quotes, and the rest behind it. It has several words if a blank
joins a date and a time. -/
def scalarChars (cs : List Char) : List Char × List Char :=
  wordsWithin (cs.length + 1) cs

/-- The items of a list up to its closing bracket, at most as many as `fuel`, and the rest. -/
def items? (item : List Char → Option (Inline × List Char)) :
    Nat → List Char → Option (List Inline × List Char)
  | 0, _ => none
  | fuel + 1, cs => do
    match ← skipAll? cs with
    | ']' :: rest => some ([], rest)
    | cs =>
      let (first, rest) ← item cs
      match ← skipAll? rest with
      | ',' :: rest => do
        let (others, rest) ← items? item fuel rest
        some (first :: others, rest)
      | ']' :: rest => some ([first], rest)
      | _ => none

/-- The entries of an inline table up to its closing brace, at most as many as `fuel`, and the
rest. -/
def members? (item : List Char → Option (Inline × List Char)) :
    Nat → List Char → Option (List (List String × Inline) × List Char)
  | 0, _ => none
  | fuel + 1, cs => do
    match ← skipAll? cs with
    | '\x7d' :: rest => some ([], rest)
    | cs =>
      let (path, rest) ← key? cs
      match ← skipAll? rest with
      | '=' :: rest =>
        let (value, rest) ← item (← skipAll? rest)
        match ← skipAll? rest with
        | ',' :: rest => do
          let (others, rest) ← members? item fuel rest
          some ((path, value) :: others, rest)
        | '\x7d' :: rest => some ([(path, value)], rest)
        | _ => none
      | _ => none

/-- A value whose lists and tables are nested at most as deep as `depth`, and the rest behind
it. -/
def inline? (depth : Nat) (cs : List Char) : Option (Inline × List Char) :=
  match cs with
  | '[' :: rest =>
    match depth with
    | 0 => none
    | depth + 1 =>
      (items? (inline? depth) (rest.length + 1) rest).map fun (items, rest) => (.list items, rest)
  | '\x7b' :: rest =>
    match depth with
    | 0 => none
    | depth + 1 =>
      (members? (inline? depth) (rest.length + 1) rest).map fun (members, rest) =>
        (.entries members, rest)
  | '"' :: _ | '\'' :: _ => (quoted? cs).map fun (text, rest) => (.atom (.string text), rest)
  | _ =>
    let (chars, rest) := scalarChars cs
    (scalar? chars).map fun value => (.atom value, rest)

/-- A statement and the rest behind it. -/
def statement? (cs : List Char) : Option (Statement × List Char) :=
  match cs with
  | '[' :: '[' :: rest => do
    let (path, rest) ← key? rest
    match rest with
    | ']' :: ']' :: rest => some (.header true path, rest)
    | _ => none
  | '[' :: rest => do
    let (path, rest) ← key? rest
    match rest with
    | ']' :: rest => some (.header false path, rest)
    | _ => none
  | _ => do
    let (path, rest) ← key? cs
    match rest with
    | '=' :: rest => do
      let (value, rest) ← inline? depthLimit (skipSpace rest)
      some (.entry path value, rest)
    | _ => none

/-- The statements of a document, at most as many as `fuel`. Each ends with its line. -/
def statementsWithin? : Nat → List Char → Option (List Statement)
  | 0, _ => none
  | fuel + 1, cs => do
    match ← skipAll? cs with
    | [] => some []
    | cs =>
      let (first, rest) ← statement? cs
      match skipComment (skipSpace rest) with
      | [] => some [first]
      | rest => do
        let others ← statementsWithin? fuel (← afterLineEnd? rest)
        some (first :: others)

/-- The statements of a document, which may begin with a byte order mark. -/
def statements? (document : List Char) : Option (List Statement) :=
  let start :=
    match document with
    | '\ufeff' :: rest => rest
    | _ => document
  statementsWithin? (start.length + 1) start

end RankedRules.Toml
