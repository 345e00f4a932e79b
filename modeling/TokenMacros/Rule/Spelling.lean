import TokenMacros.Rule.Basic
import TokenMacros.Token.Tree

/-!
# Spelling of rules

How patterns and templates are written with tokens. A dollar sign starts every
form but a literal:

    $ name : fragment                   a capture
    $ ( body ) separator quantifier     a repetition; the separator may be missing,
                                        or be an escape
    $ [ ! body ]                        a lookahead
    $ [ ( body ) | ( body ) ]           a choice of one or more variants
    $ name                              a hole
    $ $   $ >   $ <   $ ^               an escape

Captures, choices and lookaheads stand in patterns only, holes in templates
only. Of a repetition in a template the quantifier leaves no trace.

## Algorithm

The forms are tried in a fixed order, and the first that fits is taken; bodies
are read by recursion. Fuel bounds the nodes in a row and the bodies in each
other, so the number of tokens is enough of it.
-/

namespace TokenMacros

/-! ## Forms behind a dollar sign -/

/-- The fault of a dollar sign that starts no form; `ts` are the tokens behind it. -/
def badDollar (dollar : Token) : List Token → Fault
  | [] => ⟨.malformed .loneDollar, dollar.position⟩
  | next :: _ => ⟨.malformed (.afterDollar next), dollar.position⟩

/-- `name : fragment`. -/
def captureForm? : List Token → Option ((Token × Token) × List Token)
  | name :: colon :: word :: rest =>
    if name.kind = .name ∧ colon.isOperator ":" ∧ word.kind = .name then some ((name, word), rest)
    else none
  | _ => none

/-- What stands behind the body of a repetition. -/
structure RepetitionTail where
  /-- The separator, and whether a dollar sign stands before it. -/
  separator : Option (Bool × Token)
  /-- The token in the place of the quantifier. -/
  mode : Token

/-- May the token separate, or stand behind a dollar sign that does? -/
def canSeparate (t : Token) : Bool := !t.isDelimiter && (Quantifier.ofToken? t).isNone

/-- A separator, with or without a dollar sign before it. -/
def separator? : List Token → Option ((Bool × Token) × List Token)
  | [] => none
  | t :: ts =>
    if t.kind = .dollar then
      match ts with
      | [] => none
      | symbol :: rest => if canSeparate symbol then some ((true, symbol), rest) else none
    else if canSeparate t then some ((false, t), ts) else none

/-- The tokens behind the body of a repetition: a separator if there is one, then any token that
is no delimiter. -/
def repetitionTail? (ts : List Token) : Option (RepetitionTail × List Token) :=
  let (separator, behind) := match separator? ts with
    | some (s, rest) => (some s, rest)
    | none => (none, ts)
  match behind with
  | [] => none
  | mode :: rest => if mode.isDelimiter then none else some (⟨separator, mode⟩, rest)

/-- `( body ) separator quantifier`. -/
def repetitionForm? (ts : List Token) : Option ((List Token × RepetitionTail) × List Token) :=
  match splitGroup "(" ts with
  | none => none
  | some (body, behind) =>
    match repetitionTail? behind with
    | none => none
    | some (tail, rest) => some ((body, tail), rest)

/-- The symbol of an escape. -/
def escapeForm? : List Token → Option (Escape × List Token)
  | [] => none
  | symbol :: rest => (Escape.ofSymbol? symbol).map (·, rest)

/-- The variants of a choice, `fuel` of them at most: groups with bars between them. -/
def variantsFrom : Nat → List Token → Option (List (List Token))
  | 0, _ => none
  | fuel + 1, ts =>
    match splitGroup "(" ts with
    | none => none
    | some (variant, []) => some [variant]
    | some (variant, bar :: rest) =>
      if bar.isOperator "|" then (variantsFrom fuel rest).map (variant :: ·) else none

/-- The token that separates. -/
def RepetitionTail.separatorToken (tail : RepetitionTail) : Except Fault (Option Token) :=
  match tail.separator with
  | none => .ok none
  | some (false, t) => .ok (some t)
  | some (true, symbol) =>
    match Escape.ofSymbol? symbol with
    | some escape => .ok (some (escape.token symbol.position))
    | none => .error ⟨.malformed (.badSeparator symbol), symbol.position⟩

/-- Separator and quantifier of the repetition at a place. -/
def RepetitionTail.resolve (tail : RepetitionTail) (position : Position) :
    Except Fault (Option Token × Quantifier) :=
  match tail.separatorToken with
  | .error e => .error e
  | .ok separator =>
    match Quantifier.ofToken? tail.mode with
    | some q => .ok (separator, q)
    | none => .error ⟨.malformed (.badQuantifier tail.mode), position⟩

/-! ## Patterns -/

/-- Reads each list in turn. -/
def parseEach {α : Type} (parse : List Token → Except Fault α) :
    List (List Token) → Except Fault (List α)
  | [] => .ok []
  | ts :: rest =>
    match parse ts with
    | .error e => .error e
    | .ok a => (parseEach parse rest).map (a :: ·)

/-- The node for the tokens between `$[` and `]`. -/
def groupNode (parse : List Token → Except Fault Pattern) (position : Position)
    (body : List Token) : Except Fault PatternNode :=
  if body.head?.any (·.isOperator "!") then (parse body.tail).map .lookahead
  else
    match variantsFrom body.length body with
    | none => .error ⟨.malformed .badGroup, position⟩
    | some variants => (parseEach parse variants).map (.choice · position)

/-- The node that a dollar sign starts, and the tokens behind it; `parse` reads bodies. -/
def patternForm (parse : List Token → Except Fault Pattern) (dollar : Token)
    (ts : List Token) : Except Fault (PatternNode × List Token) :=
  let position := dollar.position
  match captureForm? ts with
  | some ((name, word), rest) =>
    match Fragment.ofWord? word.text with
    | some fragment => .ok (.capture name.text fragment position, rest)
    | none => .error ⟨.malformed (.unknownFragment word), word.position⟩
  | none =>
    match repetitionForm? ts with
    | some ((body, tail), rest) =>
      match tail.resolve position with
      | .error e => .error e
      | .ok (separator, q) => (parse body).map fun inner => (.repetition inner separator q, rest)
    | none =>
      match splitGroup "[" ts with
      | some (body, rest) => (groupNode parse position body).map (·, rest)
      | none =>
        match escapeForm? ts with
        | some (escape, rest) => .ok (.escape escape, rest)
        | none => .error (badDollar dollar ts)

/-- The pattern that tokens spell, as far as the fuel lasts. -/
def Pattern.parse : Nat → List Token → Except Fault Pattern
  | _, [] => .ok []
  | 0, t :: ts => .error (badDollar t ts)
  | fuel + 1, t :: ts =>
    if t.kind = .dollar then
      match patternForm (Pattern.parse fuel) t ts with
      | .error e => .error e
      | .ok (node, rest) => (Pattern.parse fuel rest).map (node :: ·)
    else (Pattern.parse fuel ts).map (.literal t :: ·)

/-- The pattern that tokens spell. -/
def Pattern.ofTokens (ts : List Token) : Except Fault Pattern := Pattern.parse ts.length ts

/-! ## Templates -/

/-- `name`. -/
def nameForm? : List Token → Option (Token × List Token)
  | [] => none
  | name :: rest => if name.kind = .name then some (name, rest) else none

/-- The node that a dollar sign starts, and the tokens behind it; `parse` reads bodies. -/
def templateForm (parse : List Token → Except Fault Template) (dollar : Token)
    (ts : List Token) : Except Fault (TemplateNode × List Token) :=
  let position := dollar.position
  match repetitionForm? ts with
  | some ((body, tail), rest) =>
    match tail.resolve position with
    | .error e => .error e
    | .ok (separator, _) => (parse body).map fun inner => (.repetition inner separator, rest)
  | none =>
    match nameForm? ts with
    | some (name, rest) => .ok (.hole name.text position, rest)
    | none =>
      match escapeForm? ts with
      | some (escape, rest) => .ok (.escape escape, rest)
      | none =>
        match splitGroup "[" ts with
        | some _ => .error ⟨.malformed .patternOnly, position⟩
        | none => .error (badDollar dollar ts)

/-- The template that tokens spell, as far as the fuel lasts. -/
def Template.parse : Nat → List Token → Except Fault Template
  | _, [] => .ok []
  | 0, t :: ts => .error (badDollar t ts)
  | fuel + 1, t :: ts =>
    if t.kind = .dollar then
      match templateForm (Template.parse fuel) t ts with
      | .error e => .error e
      | .ok (node, rest) => (Template.parse fuel rest).map (node :: ·)
    else (Template.parse fuel ts).map (.literal t :: ·)

/-- The template that tokens spell. -/
def Template.ofTokens (ts : List Token) : Except Fault Template := Template.parse ts.length ts

/-! ## Rules -/

/-- The rule that two lists of tokens spell. -/
def Rule.ofTokens (pattern template : List Token) : Except Fault Rule :=
  match Pattern.ofTokens pattern with
  | .error e => .error e
  | .ok p =>
    match Template.ofTokens template with
    | .error e => .error e
    | .ok t => Rule.make p t

end TokenMacros
