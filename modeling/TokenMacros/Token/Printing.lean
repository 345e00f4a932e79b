import TokenMacros.Token.Basic

/-!
# Printing and quoting

Tokens of a line are set apart by one space; newlines, indents and dedents turn
into line breaks, and a line is indented by four spaces for every open block.

A stream is quoted as one string token, whose text is the quoted form of the
text of the stream: between single quotes, or between double quotes if the text
holds a single quote and no double one. Backslashes, line ends, tabs and the
chosen quote are escaped by a backslash.
-/

namespace TokenMacros

/-! ## Printing -/

/-- The text of a stream that is written after `last`, the last character so far, at a nesting of
`level` blocks; `fresh` tells that a line starts here. -/
def printFrom (last : Option Char) (level : Nat) (fresh : Bool) : List Token → List Char
  | [] => []
  | t :: ts =>
    let lineBreak := if last = none ∨ last = some '\n' then [] else ['\n']
    match t.kind with
    | .newline => lineBreak ++ printFrom (last.map fun _ => '\n') level true ts
    | .indent => lineBreak ++ printFrom (last.map fun _ => '\n') (level + 1) true ts
    | .dedent => lineBreak ++ printFrom (last.map fun _ => '\n') (level - 1) true ts
    | _ =>
      let piece := (if fresh then List.replicate (4 * level) ' ' else [' ']) ++ t.text.toList
      piece ++ printFrom (piece.getLast?.or last) level false ts

/-- The source text of a stream. -/
def print (ts : List Token) : String := String.ofList (printFrom none 0 true ts)

/-! ## Quoting -/

namespace Text.Quoted

/-- The quote for a text. -/
def quoteFor (text : List Char) : Char :=
  if text.contains '\'' && !text.contains '"' then '"' else '\''

/-- A character between the quotes. -/
def escape (quote c : Char) : List Char :=
  if c = '\\' then ['\\', '\\']
  else if c = '\n' then ['\\', 'n']
  else if c = '\t' then ['\\', 't']
  else if c = '\r' then ['\\', 'r']
  else if c = quote then ['\\', c]
  else [c]

/-- The quoted form of a text. -/
def encode (text : List Char) : List Char :=
  let quote := quoteFor text
  quote :: text.flatMap (escape quote) ++ [quote]

end Text.Quoted

/-- The text of a stream for quoting: a lone token stands for its own text. -/
def textToQuote : List Token → String
  | [t] => t.text
  | ts => print ts

/-- The string token with the quoted text of a stream. -/
def quote (ts : List Token) : Token :=
  ⟨.string, String.ofList (Text.Quoted.encode (textToQuote ts).toList), firstPosition ts⟩

end TokenMacros
