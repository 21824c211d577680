/-
Quoted strings in TOML documents.

A string stands between double quotes, where a backslash begins an escape, or between single
quotes, where every character stands for itself. Between three quotes of either kind it may have
several lines; the line end right behind the opening quotes is not part of it, and a backslash at
the end of a line removes the white space up to the next character.

* `Toml.isPlain` — the characters that may stand in strings and comments as they are;
* `Toml.escape?` — the character of an escape;
* `Toml.basic?`, `Toml.literal?` — the characters up to the closing quote;
* `Toml.basicLines?`, `Toml.literalLines?` — the characters up to the closing quotes;
* `Toml.quotedLine?`, `Toml.quoted?` — a string of one line, and any string.
-/
import RankedRules.Text.Hexadecimal

namespace RankedRules.Toml

/-- A character that may stand in strings and comments as it is: no control character but a
tab. -/
def isPlain (c : Char) : Bool :=
  c = '\t' || (0x20 ≤ c.toNat && c.toNat != 0x7f)

/-- The character of a certain number of hexadecimal digits, and the rest behind them. -/
def codeEscape? (count : Nat) (cs : List Char) : Option (Char × List Char) := do
  let digits := cs.take count
  guard (digits.length = count && digits.all Text.isHexDigit)
  let code := Text.hexValue digits
  if h : code.isValidChar then some (Char.ofNatAux code h, cs.drop count) else none

/-- The character that an escape stands for, from behind the backslash, and the rest. -/
def escape? : List Char → Option (Char × List Char)
  | 'b' :: rest => some ('\x08', rest)
  | 't' :: rest => some ('\t', rest)
  | 'n' :: rest => some ('\n', rest)
  | 'f' :: rest => some ('\x0c', rest)
  | 'r' :: rest => some ('\r', rest)
  | 'e' :: rest => some ('\x1b', rest)
  | '"' :: rest => some ('"', rest)
  | '\\' :: rest => some ('\\', rest)
  | 'x' :: rest => codeEscape? 2 rest
  | 'u' :: rest => codeEscape? 4 rest
  | 'U' :: rest => codeEscape? 8 rest
  | _ => none

/-- White space inside a line. -/
def isLineSpace (c : Char) : Bool :=
  c = ' ' || c = '\t'

/-- What follows a line end. -/
def afterLineEnd? : List Char → Option (List Char)
  | '\n' :: rest => some rest
  | '\r' :: '\n' :: rest => some rest
  | _ => none

/-- White space and line ends. -/
def skipLines : List Char → List Char
  | ' ' :: rest => skipLines rest
  | '\t' :: rest => skipLines rest
  | '\n' :: rest => skipLines rest
  | '\r' :: '\n' :: rest => skipLines rest
  | cs => cs

/-- The characters of a string in double quotes, and the rest behind it. -/
def basic? : Nat → List Char → Option (List Char × List Char)
  | _, '"' :: rest => some ([], rest)
  | fuel + 1, '\\' :: rest => do
    let (c, rest) ← escape? rest
    let (chars, rest) ← basic? fuel rest
    some (c :: chars, rest)
  | fuel + 1, c :: rest => do
    guard (isPlain c)
    let (chars, rest) ← basic? fuel rest
    some (c :: chars, rest)
  | _, _ => none

/-- The characters of a string in single quotes, and the rest behind it. -/
def literal? : List Char → Option (List Char × List Char)
  | [] => none
  | '\'' :: rest => some ([], rest)
  | c :: rest => do
    guard (isPlain c)
    let (chars, rest) ← literal? rest
    some (c :: chars, rest)

/-- The end of a string of several lines: three quotes, in front of which the string may itself
end with one or two. -/
def closingQuotes? (quote : Char) (cs : List Char) : Option (List Char × List Char) :=
  let count := (cs.takeWhile (· = quote)).length
  if count < 3 then none
  else
    let own := min (count - 3) 2
    some (List.replicate own quote, cs.drop (own + 3))

/-- The rest of a line behind a backslash that ends it, and all white space up to the next
character. -/
def continued? (cs : List Char) : Option (List Char) := do
  let rest ← afterLineEnd? (cs.dropWhile isLineSpace)
  some (skipLines rest)

/-- The characters of a string of several lines in double quotes, and the rest behind it. -/
def basicLines? : Nat → List Char → Option (List Char × List Char)
  | 0, _ => none
  | fuel + 1, cs =>
    match closingQuotes? '"' cs with
    | some (own, rest) => some (own, rest)
    | none =>
      match cs with
      | [] => none
      | '\\' :: rest =>
        match continued? rest with
        | some rest => basicLines? fuel rest
        | none => do
          let (c, rest) ← escape? rest
          let (chars, rest) ← basicLines? fuel rest
          some (c :: chars, rest)
      | '\r' :: rest => do
        guard (rest.head? = some '\n')
        let (chars, rest) ← basicLines? fuel rest
        some ('\r' :: chars, rest)
      | c :: rest => do
        guard (isPlain c || c = '\n')
        let (chars, rest) ← basicLines? fuel rest
        some (c :: chars, rest)

/-- The characters of a string of several lines in single quotes, and the rest behind it. -/
def literalLines? : List Char → Option (List Char × List Char)
  | [] => none
  | c :: rest =>
    match closingQuotes? '\'' (c :: rest) with
    | some (own, rest) => some (own, rest)
    | none => do
      guard (isPlain c || c = '\n' || (c = '\r' && rest.head? = some '\n'))
      let (chars, rest) ← literalLines? rest
      some (c :: chars, rest)

/-- A string of one line, from its opening quote, and the rest behind it. -/
def quotedLine? : List Char → Option (String × List Char)
  | '"' :: rest => (basic? rest.length rest).map fun (chars, rest) => (String.ofList chars, rest)
  | '\'' :: rest => (literal? rest).map fun (chars, rest) => (String.ofList chars, rest)
  | _ => none

/-- A string, from its opening quotes, and the rest behind it. -/
def quoted? : List Char → Option (String × List Char)
  | '"' :: '"' :: '"' :: rest =>
    let inner := (afterLineEnd? rest).getD rest
    (basicLines? (inner.length + 1) inner).map fun (chars, rest) => (String.ofList chars, rest)
  | '\'' :: '\'' :: '\'' :: rest =>
    let inner := (afterLineEnd? rest).getD rest
    (literalLines? inner).map fun (chars, rest) => (String.ofList chars, rest)
  | cs => quotedLine? cs

end RankedRules.Toml
