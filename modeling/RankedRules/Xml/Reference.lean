/-
Character references, and the text that raw characters stand for.

A reference names a character by its code or is one of five names. In the value of an attribute
white space becomes blanks. In content a line end becomes one line feed; a character that was
referred to is not touched by this, nor is the character right behind it.

* `Xml.reference?` — the character behind an ampersand, and the rest;
* `Xml.Piece`, `Xml.pieces?` — characters, told apart from those referred to;
* `Xml.attributeValue` — the value of an attribute;
* `Xml.contentText` — the text of content.
-/
import RankedRules.Number.Decimal
import RankedRules.Text.Hexadecimal
import RankedRules.Xml.Name

namespace RankedRules.Xml

/-- The character of a code. A code of 32 bits that no character has means the replacement
character. -/
def charOfCode? (code : Nat) : Option Char :=
  if code < 0x100000000 then
    let c := if h : code.isValidChar then Char.ofNatAux code h else '\ufffd'
    if isChar c then some c else none
  else
    none

/-- The five characters that have names. -/
def namedChar? (name : List Char) : Option Char :=
  match String.ofList name with
  | "quot" => some '"'
  | "amp" => some '&'
  | "apos" => some '\''
  | "lt" => some '<'
  | "gt" => some '>'
  | _ => none

/-- What follows the semicolon that ends a reference. -/
def endReference? (c : Char) : List Char → Option (Char × List Char)
  | ';' :: rest => some (c, rest)
  | _ => none

/-- The character that a reference stands for, from behind its ampersand, and the rest. -/
def reference? (cs : List Char) : Option (Char × List Char) :=
  match cs with
  | '#' :: 'x' :: rest => do
    let digits := rest.takeWhile Text.isHexDigit
    guard !digits.isEmpty
    endReference? (← charOfCode? (Text.hexValue digits)) (rest.drop digits.length)
  | '#' :: rest => do
    let digits := rest.takeWhile Char.isDigit
    guard !digits.isEmpty
    endReference? (← charOfCode? (Decimal.digitsValue digits)) (rest.drop digits.length)
  | _ => do
    let (name, rest) ← name? cs
    endReference? (← namedChar? name) rest

/-- A character that stands in the document, or one that is referred to. -/
inductive Piece
  | literal (c : Char)
  | referred (c : Char)

/-- The characters that a raw text stands for, at most as many as `fuel`. -/
def piecesWithin? : Nat → List Char → Option (List Piece)
  | _, [] => some []
  | 0, _ :: _ => none
  | fuel + 1, '&' :: rest => do
    let (c, rest) ← reference? rest
    let pieces ← piecesWithin? fuel rest
    some (.referred c :: pieces)
  | fuel + 1, c :: rest => do
    let pieces ← piecesWithin? fuel rest
    some (.literal c :: pieces)

/-- The characters that a raw text stands for. -/
def pieces? (cs : List Char) : Option (List Piece) :=
  piecesWithin? cs.length cs

/-- The value of an attribute: every line end and every tab is a blank. -/
def attributeValue : List Piece → List Char
  | [] => []
  | .literal '\r' :: .literal '\n' :: rest => ' ' :: attributeValue rest
  | .literal c :: rest => (if isSpace c then ' ' else c) :: attributeValue rest
  | .referred c :: rest => c :: attributeValue rest

/-- Puts a character behind text that is kept in reverse. A carriage return there becomes a line
feed now that it is known what follows it. -/
def pushText (isLast : Bool) (c : Char) (reversed : List Char) : List Char :=
  let c' := if isLast && c = '\r' then '\n' else c
  match reversed with
  | '\r' :: front => if c = '\n' then '\n' :: front else c' :: '\n' :: front
  | _ => c' :: reversed

/-- The text of content behind text that is kept in reverse. `keep` says that the next character
follows a reference and stays as it is. -/
def contentFrom (reversed : List Char) (keep : Bool) : List Piece → List Char
  | [] => reversed.reverse
  | .referred c :: rest => contentFrom (c :: reversed) true rest
  | .literal c :: rest =>
    if keep then contentFrom (c :: reversed) false rest
    else contentFrom (pushText rest.isEmpty c reversed) false rest

/-- The text of content. -/
def contentText (pieces : List Piece) : List Char :=
  contentFrom [] false pieces

end RankedRules.Xml
