/-
Characters and names in XML documents.

* `Xml.isChar`, `Xml.isSpace` — the characters of documents, and white space among them;
* `Xml.isNameStart`, `Xml.isNameChar` — the characters of names;
* `Xml.Name` — a name with the prefix in front of its colon;
* `Xml.name?` — a name without regard to colons, `Xml.qualifiedName?` one with at most one colon.
-/
namespace RankedRules.Xml

/-- White space in markup. -/
def isSpace (c : Char) : Bool :=
  c = ' ' || c = '\t' || c = '\n' || c = '\r'

/-- A character that may occur in a document. -/
def isChar (c : Char) : Bool :=
  if c.toNat < 0x20 then isSpace c else c.toNat != 0xfffe && c.toNat != 0xffff

/-- The ranges outside ASCII that a name may begin with. -/
def nameStartRanges : List (Nat × Nat) := [
  (0xc0, 0xd6), (0xd8, 0xf6), (0xf8, 0x2ff), (0x370, 0x37d), (0x37f, 0x1fff), (0x200c, 0x200d),
  (0x2070, 0x218f), (0x2c00, 0x2fef), (0x3001, 0xd7ff), (0xf900, 0xfdcf), (0xfdf0, 0xfffd),
  (0x10000, 0xeffff)]

/-- The ranges outside ASCII that may occur in a name but not begin it. -/
def nameOnlyRanges : List (Nat × Nat) := [(0xb7, 0xb7), (0x300, 0x36f), (0x203f, 0x2040)]

def inRanges (ranges : List (Nat × Nat)) (c : Char) : Bool :=
  ranges.any fun range => range.1 ≤ c.toNat && c.toNat ≤ range.2

/-- A character that a name may begin with. -/
def isNameStart (c : Char) : Bool :=
  c.isAlpha || c = ':' || c = '_' || inRanges nameStartRanges c

/-- A character that may occur in a name. -/
def isNameChar (c : Char) : Bool :=
  isNameStart c || c.isDigit || c = '-' || c = '.' || inRanges nameOnlyRanges c

/-- A name in two parts, the first of which may be empty. -/
structure Name where
  namePrefix : String
  localName : String
  deriving DecidableEq

/-- What follows white space. -/
def skipSpace (cs : List Char) : List Char :=
  cs.dropWhile isSpace

/-- A name, colons included, and the rest behind it. -/
def name? (cs : List Char) : Option (List Char × List Char) :=
  match cs with
  | [] => none
  | c :: _ =>
    if isNameStart c then some (cs.takeWhile isNameChar, cs.dropWhile isNameChar) else none

/-- The two parts of a name around its colon. Each part that is not empty begins like a name, and
the second part is not empty. -/
def Name.ofChars? (cs : List Char) : Option Name :=
  let front := cs.takeWhile (· ≠ ':')
  match cs.dropWhile (· ≠ ':') with
  | [] => if (front.head?.map isNameStart).getD false then some ⟨"", String.ofList front⟩ else none
  | _ :: back =>
    if back.contains ':' then none
    else if (front.head?.map isNameStart).getD true && (back.head?.map isNameStart).getD false then
      some ⟨String.ofList front, String.ofList back⟩
    else none

/-- A name in two parts, and the rest behind it. -/
def qualifiedName? (cs : List Char) : Option (Name × List Char) :=
  (Name.ofChars? (cs.takeWhile isNameChar)).map fun name => (name, cs.dropWhile isNameChar)

end RankedRules.Xml
