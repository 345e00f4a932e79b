import TokenMacros.Source.Lexeme

/-!
# Layout

Lexemes become tokens line by line. A logical line ends at a line break outside
brackets, and its indentation, compared with that of the open blocks, opens or
closes blocks. Newlines that an indent, a dedent or the end makes idle are
dropped.

## Algorithm

`LineState.step` turns one lexeme into tokens, `LineState.closing` closes what is
open at the end, `dropIdleNewlines` prunes the stream.
-/

namespace TokenMacros.Source

/-- Where the reader of lines stands. -/
structure LineState where
  /-- Widths of the open blocks, the innermost first. -/
  indents : List Nat := []
  /-- Brackets open; line breaks within them end no line. -/
  depth : Nat := 0
  /-- No token of the line has come yet. -/
  lineStart : Bool := true
  /-- Width of the blanks before the first token of the line. -/
  width : Nat := 0
  /-- A token has come since the last newline. -/
  hasTokens : Bool := false

/-- The kind of token that a lexeme becomes, if it becomes one. -/
def LexemeKind.token? : LexemeKind → Option Token.Kind
  | .string => some .string
  | .number => some .number
  | .name => some .name
  | .opener => some .opener
  | .closer => some .closer
  | .dollar => some .dollar
  | .operator => some .operator
  | .lineBreak | .blank | .comment | .continuation => none

/-- Width of blanks: a tab reaches to the next multiple of eight, a form feed starts over. -/
def blankWidth (blanks : List Char) : Nat :=
  blanks.foldl (fun width c =>
    if c = '\t' then (width / 8 + 1) * 8 else if c = '\x0c' then 0 else width + 1) 0

/-- Closes the blocks that are wider than a line; its width has to be that of an open block. -/
def closeBlocks (width : Nat) (p : Position) : List Nat → Except Fault (List Token × List Nat)
  | [] => if width = 0 then .ok ([], []) else .error ⟨.unreadable .badDedent, p⟩
  | w :: ws =>
    if width < w then
      (closeBlocks width p ws).map fun r => (.dedent p :: r.1, r.2)
    else if width = w then .ok ([], w :: ws)
    else .error ⟨.unreadable .badDedent, p⟩

/-- The layout tokens before a line of that width, and the blocks that are open then. -/
def layoutBefore (width : Nat) (p : Position) (indents : List Nat) :
    Except Fault (List Token × List Nat) :=
  if indents.headD 0 < width then .ok ([.indent p], width :: indents)
  else closeBlocks width p indents

namespace LineState

/-- Bracket depth after a token; a stray closer leaves it at zero. -/
def depthAfter (depth : Nat) : Token.Kind → Nat
  | .opener => depth + 1
  | .closer => depth - 1
  | _ => depth

/-- The tokens that one lexeme adds. -/
def step (s : LineState) (x : Lexeme) : Except Fault (List Token × LineState) :=
  match x.kind.token? with
  | some kind =>
    let token : Token := ⟨kind, String.ofList x.text, x.position⟩
    let laid :=
      if s.lineStart then layoutBefore s.width x.position s.indents else .ok ([], s.indents)
    laid.map fun r =>
      (r.1 ++ [token], { s with
        indents := r.2
        depth := depthAfter s.depth kind
        lineStart := false
        hasTokens := true })
  | none =>
    if x.kind = .lineBreak ∧ s.depth = 0 then
      .ok (if s.hasTokens then [.newline x.position] else [],
        { s with lineStart := true, width := 0, hasTokens := false })
    else if x.kind = .blank ∧ s.lineStart then
      .ok ([], { s with width := blankWidth x.text })
    else .ok ([], s)

/-- The tokens at the end of the source. -/
def closing (s : LineState) (p : Position) : List Token :=
  (if s.hasTokens then [.newline p] else []) ++ s.indents.map fun _ => .dedent p

/-- The tokens of lexemes whose source ends at `p`. -/
def tokens (s : LineState) (p : Position) : List Lexeme → Except Fault (List Token)
  | [] => .ok (s.closing p)
  | x :: xs =>
    match s.step x with
    | .error e => .error e
    | .ok (ts, s') => (tokens s' p xs).map (ts ++ ·)

end LineState

/-- Drops every newline that stands before an indent, before a dedent or at the end. -/
def dropIdleNewlines : List Token → List Token
  | [] => []
  | t :: ts =>
    let idle := t.kind = .newline ∧
      (ts.head?.all fun u => u.kind == .indent || u.kind == .dedent)
    if idle then dropIdleNewlines ts else t :: dropIdleNewlines ts

end Source

/-- The tokens of a source text. -/
def tokenize (source : String) : Except Fault (List Token) :=
  match Source.lexemes source.toList with
  | .error e => .error e
  | .ok (xs, p) => (Source.LineState.tokens {} p.position xs).map Source.dropIdleNewlines

end TokenMacros
