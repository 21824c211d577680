/-
XML documents as a sequence of tags and texts.

A document is an optional declaration and one element, with comments and processing instructions
around it. Comments and instructions are passed over; a document type is not accepted. The
elements are not yet matched: the sequence ends with the tag that closes as many elements as have
been opened.

* `Xml.Attribute`, `Xml.Markup` — an attribute, and a tag or text;
* `Xml.rawAttribute?`, `Xml.attribute?`, `Xml.attributes?` — the attributes of a tag;
* `Xml.comment?`, `Xml.instruction?`, `Xml.declaration?` — what is passed over;
* `Xml.content?` — the content of open elements, and the rest behind the outermost one;
* `Xml.markup?` — the tags and texts of a whole document.
-/
import RankedRules.Xml.Reference

namespace RankedRules.Xml

/-- An attribute of a tag. -/
structure Attribute where
  name : Name
  value : String

/-- A tag or a text. An opening tag may close its element at once, and knows how many characters
there are from its start to the end of the document. -/
inductive Markup
  | opening (name : Name) (attributes : List Attribute) (closed : Bool) (remaining : Nat)
  | closing (name : Name)
  | text (text : List Char)

/-- What follows `front` at the start of a text. -/
def after? (front : String) (cs : List Char) : Option (List Char) :=
  if front.toList.isPrefixOf cs then some (cs.drop front.length) else none

/-- The characters before the first `mark`, and the rest behind it. -/
def until? (mark : List Char) : List Char → Option (List Char × List Char)
  | [] => none
  | c :: rest =>
    if mark.isPrefixOf (c :: rest) then some ([], (c :: rest).drop mark.length)
    else if isChar c then (until? mark rest).map fun (front, rest) => (c :: front, rest)
    else none

/-- Whether `part` occurs in a text. -/
def contains (part : List Char) : List Char → Bool
  | [] => part.isEmpty
  | c :: rest => part.isPrefixOf (c :: rest) || contains part rest

/-- A comment, from behind the characters that open it: the rest behind it. -/
def comment? (cs : List Char) : Option (List Char) := do
  let (text, rest) ← until? "-->".toList cs
  guard (!contains "--".toList text && text.getLast? ≠ some '-')
  some rest

/-- A processing instruction, from its start: the rest behind it. -/
def instruction? (cs : List Char) : Option (List Char) := do
  guard (after? "<?xml " cs).isNone
  let (_, rest) ← name? (cs.drop 2)
  let (_, rest) ← until? "?>".toList (skipSpace rest)
  some rest

/-- An attribute with its value as it is written, and the rest behind it. -/
def rawAttribute? (cs : List Char) : Option (Name × List Char × List Char) := do
  let (name, rest) ← qualifiedName? cs
  let rest ← after? "=" (skipSpace rest)
  match skipSpace rest with
  | [] => none
  | quote :: rest =>
    guard (quote = '"' ∨ quote = '\'')
    let (raw, rest) ← until? [quote] rest
    guard !raw.contains '<'
    some (name, raw, rest)

/-- An attribute and the rest behind it. -/
def attribute? (cs : List Char) : Option (Attribute × List Char) := do
  let (name, raw, rest) ← rawAttribute? cs
  let pieces ← pieces? raw
  some (⟨name, String.ofList (attributeValue pieces)⟩, rest)

/-- The attributes of a tag, whether the tag closes its element, and the rest behind the tag. -/
def attributes? : Nat → List Char → Option (List Attribute × Bool × List Char)
  | 0, _ => none
  | fuel + 1, cs =>
    match skipSpace cs with
    | '/' :: '>' :: rest => some ([], true, rest)
    | '>' :: rest => some ([], false, rest)
    | inner => do
      guard (inner.length < cs.length)
      let (first, rest) ← attribute? inner
      let (others, closed, rest) ← attributes? fuel rest
      some (first :: others, closed, rest)

/-- An opening tag, from its start, whether it closes its element, and the rest behind it. -/
def opening? (cs : List Char) : Option (Markup × Bool × List Char) := do
  let (name, rest) ← qualifiedName? (cs.drop 1)
  let (attributes, closed, rest) ← attributes? (rest.length + 1) rest
  some (.opening name attributes closed cs.length, closed, rest)

/-- A closing tag, from behind the characters that open it, and the rest behind it. -/
def closing? (cs : List Char) : Option (Markup × List Char) := do
  let (name, rest) ← qualifiedName? cs
  let rest ← after? ">" (skipSpace rest)
  some (.closing name, rest)

/-- A part of the document in which references have no meaning, from behind the characters that
open it, and the rest behind it. -/
def verbatim? (cs : List Char) : Option (Markup × List Char) := do
  let (raw, rest) ← until? "]]>".toList cs
  some (.text (contentText (raw.map .literal)), rest)

/-- Text up to the next tag, and the rest from there on. -/
def text? (cs : List Char) : Option (Markup × List Char) := do
  let raw := cs.takeWhile (· ≠ '<')
  guard (raw.all isChar && !contains "]]>".toList raw)
  let pieces ← pieces? raw
  some (.text (contentText pieces), cs.dropWhile (· ≠ '<'))

/-- The content of a number of open elements up to the tag that closes the outermost one, and the
rest behind it. Every tag and text takes at least one character, as `fuel` counts. -/
def content? : Nat → Nat → List Char → Option (List Markup × List Char)
  | _, 0, cs => some ([], cs)
  | 0, _ + 1, _ => none
  | fuel + 1, depth + 1, cs =>
    match cs with
    | [] => none
    | '<' :: '!' :: '-' :: '-' :: rest => do content? fuel (depth + 1) (← comment? rest)
    | '<' :: '!' :: rest => do
      let (text, rest) ← verbatim? (← after? "[CDATA[" rest)
      let (others, rest) ← content? fuel (depth + 1) rest
      some (text :: others, rest)
    | '<' :: '?' :: _ => do content? fuel (depth + 1) (← instruction? cs)
    | '<' :: '/' :: rest => do
      let (tag, rest) ← closing? rest
      let (others, rest) ← content? fuel depth rest
      some (tag :: others, rest)
    | '<' :: _ => do
      let (tag, closed, rest) ← opening? cs
      let (others, rest) ← content? fuel (if closed then depth + 1 else depth + 2) rest
      some (tag :: others, rest)
    | _ => do
      let (text, rest) ← text? cs
      let (others, rest) ← content? fuel (depth + 1) rest
      some (text :: others, rest)

/-- What follows white space, comments and processing instructions, at most `fuel` of them. -/
def skipMisc? : Nat → List Char → Option (List Char)
  | 0, cs => some (skipSpace cs)
  | fuel + 1, cs =>
    let cs := skipSpace cs
    match after? "<!--" cs with
    | some rest => do skipMisc? fuel (← comment? rest)
    | none => if (after? "<?" cs).isSome then do skipMisc? fuel (← instruction? cs) else some cs

/-- What follows white space, or nothing if neither that nor the end of the declaration comes. -/
def declarationSpace? (cs : List Char) : Option (List Char) :=
  match cs with
  | [] => some []
  | c :: _ => if isSpace c then some (skipSpace cs) else (after? "?>" cs).map fun _ => cs

/-- What follows the declaration that a document may begin with. -/
def declaration? (cs : List Char) : Option (List Char) :=
  match after? "<?xml " cs with
  | none => some cs
  | some rest => do
    let rest := skipSpace rest
    guard (after? "version" rest).isSome
    let (_, _, rest) ← rawAttribute? rest
    let rest ← declarationSpace? rest
    let rest ←
      if (after? "encoding" rest).isSome then do
        let (_, _, rest) ← rawAttribute? rest
        declarationSpace? rest
      else some rest
    let rest ←
      if (after? "standalone" rest).isSome then do
        let (_, _, rest) ← rawAttribute? rest
        some rest
      else some rest
    after? "?>" (skipSpace rest)

/-- The tags and texts of a document, from the tag that opens the outermost element to the one
that closes it. -/
def markup? (document : List Char) : Option (List Markup) := do
  let start := (after? "\ufeff" document).getD document
  let inner ← skipMisc? document.length (← declaration? start)
  guard (inner.head? = some '<')
  let (root, closed, rest) ← opening? inner
  let (others, rest) ← content? rest.length (if closed then 0 else 1) rest
  let rest ← skipMisc? document.length rest
  guard rest.isEmpty
  some (root :: others)

end RankedRules.Xml
