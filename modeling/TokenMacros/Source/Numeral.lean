/-!
# Numerals

The length of the number at the head of a text. A number is written in base 16,
8, 2 or 10; single underscores may stand between its digits, and a `j` behind it
marks an imaginary number.
-/

namespace TokenMacros.Source

/-- Is it that letter, in either case? -/
def isLetter (letter c : Char) : Bool := c.toLower == letter

/-- Is it a digit in base 16? -/
def isHexDigit (c : Char) : Bool := c.isDigit || ('a' ≤ c.toLower && c.toLower ≤ 'f')

/-- Is it a digit in base 8? -/
def isOctalDigit (c : Char) : Bool := '0' ≤ c && c ≤ '7'

/-- Is it a digit in base 2? -/
def isBinaryDigit (c : Char) : Bool := c == '0' || c == '1'

/-- Length of a run of digits, each of them behind at most one underscore. -/
def digitRun (digit : Char → Bool) : List Char → Nat
  | '_' :: c :: cs => if digit c then digitRun digit cs + 2 else 0
  | c :: cs => if digit c then digitRun digit cs + 1 else 0
  | [] => 0

/-- Length of decimal digits, the first of them without an underscore. -/
def digits : List Char → Nat
  | c :: cs => if c.isDigit then digitRun Char.isDigit cs + 1 else 0
  | [] => 0

/-- A number in the base that `letter` stands for, as in `0x1f`. -/
def basedNumber (letter : Char) (digit : Char → Bool) : List Char → Option Nat
  | '0' :: c :: cs =>
    if isLetter letter c && digitRun digit cs ≠ 0 then some (digitRun digit cs + 2) else none
  | _ => none

/-- Length of an exponent, 0 if there is none. -/
def exponent : List Char → Nat
  | c :: cs =>
    let sign := match cs with
      | '+' :: _ => 1
      | '-' :: _ => 1
      | _ => 0
    let n := digits (cs.drop sign)
    if isLetter 'e' c && n ≠ 0 then 1 + sign + n else 0
  | [] => 0

/-- Length of a decimal number before its exponent: digits on at least one side of the point. -/
def mantissa (cs : List Char) : Option Nat :=
  let n := digits cs
  match cs.drop n with
  | '.' :: rest =>
    if n = 0 ∧ digits rest = 0 then none else some (n + 1 + digits rest)
  | _ => if n = 0 then none else some n

/-- A number in base 10, with its exponent if there is one. -/
def decimalNumber (cs : List Char) : Option Nat :=
  (mantissa cs).map fun n => n + exponent (cs.drop n)

/-- Length of the number at the head. -/
def number (cs : List Char) : Option Nat :=
  let real := basedNumber 'x' isHexDigit cs <|> basedNumber 'o' isOctalDigit cs
    <|> basedNumber 'b' isBinaryDigit cs <|> decimalNumber cs
  real.map fun n => if (cs.drop n).head?.any (isLetter 'j') then n + 1 else n

end TokenMacros.Source
