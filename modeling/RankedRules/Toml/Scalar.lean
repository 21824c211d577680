/-
TOML values without quotes: numbers, truth values, dates and times.

Underscores may stand between two digits of a number. Integers may be written in four bases, and
leading zeros are not allowed in decimal. What only resembles an integer is a value too, one that
cannot be read. A date and a time are joined by the letter T or a blank; the seconds of a time may
be missing. The normal form of a date and time has the letter T and the seconds, and of their
fraction at most nine digits without zeros at the end.

* `Toml.digits?` — digits with underscores between them;
* `Toml.integer?`, `Toml.float?` — numbers, `Toml.resemblesInteger` what only looks like one;
* `Toml.date?`, `Toml.time?`, `Toml.offset?`, `Toml.datetime?` — parts of dates and times, each in
  its normal form with the rest behind it, and a whole date or time;
* `Toml.scalar?` — the value that a whole text is.
-/
import RankedRules.Text.Hexadecimal
import RankedRules.Toml.Basic

namespace RankedRules.Toml

/-- Digits that satisfy a test, without the underscores between them. -/
def digits? (isDigit : Char → Bool) : List Char → Option (List Char)
  | [] => none
  | [c] => if isDigit c then some [c] else none
  | c :: '_' :: rest => if isDigit c then (digits? isDigit rest).map (c :: ·) else none
  | c :: rest => if isDigit c then (digits? isDigit rest).map (c :: ·) else none

/-- Digits of a base, which is at most sixteen. -/
def inBase? (base : Nat) (cs : List Char) : Option Int :=
  (digits? (fun c => (Text.hexDigit? c).any (· < base)) cs).map fun digits =>
    (Text.valueInBase base digits : Int)

/-- Decimal digits without leading zeros. -/
def decimalDigits? (cs : List Char) : Option (List Char) := do
  let digits ← digits? Char.isDigit cs
  match digits with
  | '0' :: _ :: _ => none
  | _ => some digits

/-- An integer. -/
def integer? (cs : List Char) : Option Int :=
  match cs with
  | '0' :: 'x' :: rest => inBase? 16 rest
  | '0' :: 'o' :: rest => inBase? 8 rest
  | '0' :: 'b' :: rest => inBase? 2 rest
  | _ => do
    let (negative, rest) := Decimal.splitSign cs
    let n := Decimal.digitsValue (← decimalDigits? rest)
    some (if negative then -(n : Int) else n)

/-- A character that makes a number a float. -/
def isFloatMark (c : Char) : Bool :=
  c = '.' || c = 'e' || c = 'E'

/-- Whether every underscore stands between two hexadecimal digits. -/
def isSeparated : List Char → Bool
  | c :: '_' :: rest =>
    Text.isHexDigit c && rest.head?.any Text.isHexDigit && isSeparated rest
  | c :: rest => c != '_' && isSeparated rest
  | [] => true

/-- Whether a text counts as an integer in spite of its digits: the mark of a base alone, or a text
that begins with a decimal digit other than zero and has an underscore behind its first digits, and
that has only underscores between hexadecimal digits, no mark of a float and no blank. -/
def resemblesInteger (cs : List Char) : Bool :=
  match cs with
  | ['0', 'x'] | ['0', 'o'] | ['0', 'b'] => true
  | _ =>
    let rest := (Decimal.splitSign cs).2
    rest.head?.any (fun c => c.isDigit && c != '0') &&
      (rest.dropWhile Char.isDigit).head? == some '_' &&
      isSeparated rest && !rest.any fun c => isFloatMark c || c = ' '

/-- The exponent of a float, from behind the letter e. -/
def exponent? (cs : List Char) : Option Int := do
  let (negative, unsigned) := Decimal.splitSign cs
  let n := Decimal.digitsValue (← digits? Char.isDigit unsigned)
  some (if negative then -(n : Int) else n)

/-- A finite float: an integer with a fraction, an exponent or both. -/
def finiteFloat? (cs : List Char) : Option Decimal := do
  let (negative, rest) := Decimal.splitSign cs
  let whole ← decimalDigits? (rest.takeWhile fun c => !isFloatMark c)
  let rest := rest.dropWhile fun c => !isFloatMark c
  let isLetter (c : Char) : Bool := c = 'e' || c = 'E'
  let fraction ←
    match rest with
    | '.' :: rest => digits? Char.isDigit (rest.takeWhile fun c => !isLetter c)
    | _ => some []
  let exponent ←
    match rest.dropWhile fun c => !isLetter c with
    | [] => some 0
    | _ :: rest => exponent? rest
  guard !rest.isEmpty
  some ⟨negative, Decimal.digitsValue (whole ++ fraction), exponent - fraction.length⟩

/-- A float; the words for what is not finite are floats too. -/
def float? (cs : List Char) : Option Toml :=
  match (Decimal.splitSign cs).2 with
  | ['i', 'n', 'f'] | ['n', 'a', 'n'] => some (.float none)
  | _ =>
    (finiteFloat? cs).map fun decimal =>
      match decimal.toDouble? with
      | some x => .float (some x)
      | none => .unreadable

/-- A number of two digits below a limit, and the rest behind it. -/
def twoDigits? (limit : Nat) : List Char → Option (Nat × List Char)
  | a :: b :: rest =>
    let n := Decimal.digitsValue [a, b]
    if a.isDigit && b.isDigit && n < limit then some (n, rest) else none
  | _ => none

/-- What follows a certain character. -/
def afterChar? (wanted : Char) : List Char → Option (List Char)
  | c :: rest => if c = wanted then some rest else none
  | [] => none

/-- A number in decimal digits, filled up with zeros to two. -/
def twoDigits (n : Nat) : List Char :=
  if n < 10 then '0' :: Decimal.digitChars n else Decimal.digitChars n

/-- The days of a month. -/
def daysOfMonth (year month : Nat) : Nat :=
  if month = 2 then
    if year % 4 = 0 ∧ (year % 100 ≠ 0 ∨ year % 400 = 0) then 29 else 28
  else if month = 4 ∨ month = 6 ∨ month = 9 ∨ month = 11 then 30
  else 31

/-- A date and the rest behind it. -/
def date? (cs : List Char) : Option (List Char × List Char) := do
  let (century, rest) ← twoDigits? 100 cs
  let (yearOfCentury, rest) ← twoDigits? 100 rest
  let (month, rest) ← twoDigits? 13 (← afterChar? '-' rest)
  let (day, rest) ← twoDigits? 32 (← afterChar? '-' rest)
  guard (0 < month ∧ 0 < day ∧ day ≤ daysOfMonth (100 * century + yearOfCentury) month)
  some (cs.take 10, rest)

/-- A fraction of a second, from its digits: at most nine, without zeros at the end, and nothing if
none is left. -/
def fractionChars (digits : List Char) : List Char :=
  match ((digits.take 9).reverse.dropWhile (· = '0')).reverse with
  | [] => []
  | kept => '.' :: kept

/-- A time, always with seconds, and the rest behind it. -/
def time? (cs : List Char) : Option (List Char × List Char) := do
  let (hour, rest) ← twoDigits? 24 cs
  let (minute, rest) ← twoDigits? 60 (← afterChar? ':' rest)
  let start := twoDigits hour ++ ':' :: twoDigits minute
  match rest with
  | ':' :: rest => do
    let (second, rest) ← twoDigits? 61 rest
    let start := start ++ ':' :: twoDigits second
    match rest with
    | '.' :: rest => do
      let digits := rest.takeWhile Char.isDigit
      guard !digits.isEmpty
      some (start ++ fractionChars digits, rest.dropWhile Char.isDigit)
    | _ => some (start, rest)
  | _ => some (start ++ ":00".toList, rest)

/-- The distance of a time zone, which must be all that is left. -/
def offset? (cs : List Char) : Option (List Char) :=
  match cs with
  | [] => some []
  | ['Z'] | ['z'] => some ['Z']
  | sign :: rest => do
    guard (sign = '+' ∨ sign = '-')
    let (hours, rest) ← twoDigits? 24 rest
    let (minutes, rest) ← twoDigits? 60 (← afterChar? ':' rest)
    guard rest.isEmpty
    let sign := if hours = 0 ∧ minutes = 0 then '+' else sign
    some (sign :: twoDigits hours ++ ':' :: twoDigits minutes)

/-- A date, a time, or both. -/
def datetime? (cs : List Char) : Option (List Char) :=
  match date? cs with
  | some (date, []) => some date
  | some (date, mark :: rest) => do
    guard (mark = 'T' ∨ mark = 't' ∨ mark = ' ')
    let (time, rest) ← time? rest
    some (date ++ 'T' :: time ++ (← offset? rest))
  | none => do
    let (time, rest) ← time? cs
    guard rest.isEmpty
    some time

/-- The value that a whole text without quotes is. -/
def scalar? (cs : List Char) : Option Toml :=
  match String.ofList cs with
  | "true" => some (.boolean true)
  | "false" => some (.boolean false)
  | _ =>
    match integer? cs, datetime? cs with
    | some n, _ => some (.integer n)
    | none, some text => some (.datetime (String.ofList text))
    | none, none => if resemblesInteger cs then some .unreadable else float? cs

end RankedRules.Toml
