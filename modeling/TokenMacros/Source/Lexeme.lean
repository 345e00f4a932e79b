import TokenMacros.Fault
import TokenMacros.Source.Numeral
import TokenMacros.Source.StringLiteral
import TokenMacros.Text.Identifier

/-!
# Lexemes

A source text falls into lexemes: blanks, comments and line breaks as well as
the texts of tokens. At every place the kinds of lexeme are tried in a fixed
order, and the first that fits is taken.

The places of lexemes are counted without a bound. A position holds line and column
in 32 bits, so it is the place modulo `2 ^ 32`.
-/

namespace TokenMacros.Source

/-! ## Places -/

/-- A place in a source text, counted from 1. -/
structure Place where
  line : Nat
  column : Nat
deriving DecidableEq

namespace Place

/-- The place of the first character of a source text. -/
def start : Place := ⟨1, 1⟩

/-- The place after a character: a line ends at a line feed and nowhere else. -/
def next (p : Place) (c : Char) : Place :=
  if c = '\n' then ⟨p.line + 1, 1⟩ else ⟨p.line, p.column + 1⟩

/-- The place after a text. -/
def advance (p : Place) (text : List Char) : Place := text.foldl next p

/-- The position that is noted for a place; what 32 bits do not hold is cut off. -/
def position (p : Place) : Position := ⟨p.line.toUInt32, p.column.toUInt32⟩

end Place

/-! ## Pieces of text -/

/-- What a lexeme is. -/
inductive LexemeKind
  | lineBreak
  | blank
  | comment
  /-- A backslash with the line break behind it. -/
  | continuation
  | string
  | number
  | name
  | opener
  | closer
  | dollar
  | operator
deriving DecidableEq

/-- A piece of source text. -/
structure Lexeme where
  kind : LexemeKind
  text : List Char
  position : Position
deriving DecidableEq

/-! ## Algorithm -/

/-- A carriage return and the line feed behind it are one line break. -/
def lineBreak : List Char → Option Nat
  | '\r' :: '\n' :: _ => some 2
  | '\n' :: _ => some 1
  | '\r' :: _ => some 1
  | _ => none

/-- A run that is not empty. -/
def run (p : Char → Bool) (cs : List Char) : Option Nat :=
  match (cs.takeWhile p).length with
  | 0 => none
  | n => some n

/-- Is it a space, a tab or a form feed? -/
def isBlank (c : Char) : Bool := c == ' ' || c == '\t' || c == '\x0c'

/-- A comment reaches to the end of its line. -/
def comment : List Char → Option Nat
  | '#' :: cs => some ((cs.takeWhile fun c => !isLineEnd c).length + 1)
  | _ => none

/-- A backslash with the line break behind it. -/
def continuation : List Char → Option Nat
  | '\\' :: cs => (lineBreak cs).map (· + 1)
  | _ => none

/-- A name reaches as far as its characters continue it. -/
def name : List Char → Option Nat
  | c :: cs =>
    if Text.isNameStart c then some ((cs.takeWhile Text.isIdentifierContinue).length + 1) else none
  | [] => none

/-- One character of a set. -/
def oneOf (set : List Char) : List Char → Option Nat
  | c :: _ => if set.contains c then some 1 else none
  | [] => none

/-- The operators; of two that start alike, the longer stands first. -/
def operators : List String :=
  ["**=", "//=", ">>=", "<<=", "...", "->", ":=",
    "**", "//", "<<", ">>", "<=", ">=", "==", "!=",
    "+=", "-=", "*=", "/=", "%=", "&=", "|=", "^=", "@=",
    "+", "-", "*", "/", "%", "&", "|", "^", "~",
    "<", ">", "=", ".", ",", ":", ";", "@", "!", "?"]

/-- The first operator of the list that the text starts with. -/
def operator (cs : List Char) : Option Nat :=
  (operators.find? fun o => o.toList.isPrefixOf cs).map String.length

/-- Kind and length of the lexeme at the head of a text. -/
def lexeme? (cs : List Char) : Option (LexemeKind × Nat) :=
  (lineBreak cs).map (LexemeKind.lineBreak, ·)
    <|> (run isBlank cs).map (LexemeKind.blank, ·)
    <|> (comment cs).map (LexemeKind.comment, ·)
    <|> (continuation cs).map (LexemeKind.continuation, ·)
    <|> (stringLiteral cs).map (LexemeKind.string, ·)
    <|> (number cs).map (LexemeKind.number, ·)
    <|> (name cs).map (LexemeKind.name, ·)
    <|> (oneOf ['(', '[', '\x7b'] cs).map (LexemeKind.opener, ·)
    <|> (oneOf [')', ']', '\x7d'] cs).map (LexemeKind.closer, ·)
    <|> (oneOf ['$'] cs).map (LexemeKind.dollar, ·)
    <|> (operator cs).map (LexemeKind.operator, ·)

/-- The fault where no lexeme fits: behind a lone backslash, else at the place itself. -/
def unreadable (p : Place) (cs : List Char) : Fault :=
  if cs.head? = some '\\' then ⟨.unreadable .afterBackslash, (p.next '\\').position⟩
  else if p = .start then ⟨.unreadable .atStart, p.position⟩
  else ⟨.unreadable .noLexeme, p.position⟩

/-- The lexemes of a text that starts at `p`, and the place where it ends. -/
def lexemesFrom : Nat → Place → List Char → Except Fault (List Lexeme × Place)
  | _, p, [] => .ok ([], p)
  | 0, p, c :: cs => .error (unreadable p (c :: cs))
  | fuel + 1, p, c :: cs =>
    match lexeme? (c :: cs) with
    | none => .error (unreadable p (c :: cs))
    | some (kind, n) =>
      let text := (c :: cs).take n
      (lexemesFrom fuel (p.advance text) ((c :: cs).drop n)).map fun r =>
        (⟨kind, text, p.position⟩ :: r.1, r.2)

/-- The lexemes of a source text, and the place where it ends. -/
def lexemes (source : List Char) : Except Fault (List Lexeme × Place) :=
  lexemesFrom source.length .start source

end TokenMacros.Source
