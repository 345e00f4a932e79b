/-!
# String literals

The length of the string literal at the head of a text. A literal has an
optional mark such as `rb`, then three quotes or one. A backslash takes the
character behind it along, whatever that is; a literal with one quote ends
before a line break, and an unfinished literal is no literal.
-/

namespace TokenMacros.Source

/-- Is it a carriage return or a line feed? -/
def isLineEnd (c : Char) : Bool := c == '\n' || c == '\r'

/-- Length of the rest of a literal, up to and with the closing three quotes. -/
def longTail (quote : Char) : List Char → Option Nat
  | [] => none
  | '\\' :: _ :: cs => (longTail quote cs).map (· + 2)
  | c :: cs =>
    if c = quote ∧ cs.take 2 = [quote, quote] then some 3
    else (longTail quote cs).map (· + 1)

/-- Length of the rest of a literal, up to and with the closing quote. -/
def shortTail (quote : Char) : List Char → Option Nat
  | [] => none
  | '\\' :: _ :: cs => (shortTail quote cs).map (· + 2)
  | c :: cs =>
    if c = quote then some 1
    else if isLineEnd c then none
    else (shortTail quote cs).map (· + 1)

/-- Length of the literal that starts with this quote: three quotes are tried before one. -/
def quotedBy (quote : Char) (cs : List Char) : Option Nat :=
  (if cs.take 3 = [quote, quote, quote] then (longTail quote (cs.drop 3)).map (· + 3) else none)
    <|> (if cs.take 1 = [quote] then (shortTail quote (cs.drop 1)).map (· + 1) else none)

/-- The marks of two letters. -/
def doubleMarks : List (List Char) := [['r', 'b'], ['b', 'r'], ['r', 'f'], ['f', 'r']]

/-- The marks of one letter. -/
def singleMarks : List (List Char) := [['r'], ['b'], ['u'], ['f']]

/-- Length of the mark before the quotes, in either case. -/
def markLength (cs : List Char) : Nat :=
  if doubleMarks.contains ((cs.take 2).map Char.toLower) then 2
  else if singleMarks.contains ((cs.take 1).map Char.toLower) then 1
  else 0

/-- Length of the string literal at the head. -/
def stringLiteral (cs : List Char) : Option Nat :=
  let mark := markLength cs
  let body := cs.drop mark
  (quotedBy '"' body <|> quotedBy '\'' body).map (mark + ·)

end TokenMacros.Source
