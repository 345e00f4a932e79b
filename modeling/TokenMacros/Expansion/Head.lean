import TokenMacros.Expansion.Rules
import TokenMacros.Token.Printing

/-!
# Changing heads

A call applies a macro to the interior of the tree behind its name, a decorator
applies one to the item below its line, a declaration defines one. A macro is
applied by `apply`.
-/

namespace TokenMacros

/-- Applies a macro to a stream. -/
abbrev Apply := Macro → Transform

/-- Applies the macro that a token names; it has to accept the argument. -/
def invoke (apply : Apply) (name : Token) (argument : List Token) : Expansion (List Token) := do
  match (← Expansion.environment).find? name.text with
  | none => .fail (.undefinedMacro name.text) name.position
  | some m =>
    match ← apply m argument with
    | some out => return out
    | none => .fail (.unmatched name.text (print argument)) name.position

/-! ## Calls -/

/-- The tree behind name and operator that holds the argument, whether it is a block, and the
tokens after it. -/
def splitArgument : List Token → Except Fault (Option ((List Token × Bool) × List Token))
  | [] => .ok none
  | t :: ts =>
    if t.isOpener "(" || t.isOpener "[" || t.isOpener "\x7b" then
      (splitTree (t :: ts)).map fun p => some ((interior p.1, false), p.2)
    else if t.isOperator ":" && ts.head?.any (·.kind == .indent) then
      (splitTree ts).map fun p => some ((interior p.1, true), p.2)
    else .ok none

/-- Changes `name!(...)` and its like. Behind what a block becomes, a newline is put. -/
def callHead (apply : Apply) (operator : String) : List Token → Expansion (Option HeadChange)
  | name :: op :: ts => do
    if name.kind = .name ∧ op.isOperator operator then
      match ← Expansion.ofExcept (splitArgument ts) with
      | none => return none
      | some ((argument, block), rest) =>
        let out ← invoke apply name argument
        let ending := if block then [Token.newline name.position] else []
        return some ⟨ts.length + 2 - rest.length, out ++ ending⟩
    else return none
  | _ => pure none

/-! ## Decorators -/

/-- Does a stacked decorator start the line? -/
def startsDecorator (ts : List Token) : Bool := ts.head?.any (·.isOperator "@")

/-- Cuts off the item at the head of a stream: a logical line with the block that follows it, and
the stacked decorator lines before it. `decorator` tells that the line is one of those; `fuel`
bounds the walk. -/
def splitItemFrom : Nat → Bool → List Token → Except Fault (List Token × List Token)
  | 0, _, ts => .ok ([], ts)
  | _, _, [] => .ok ([], [])
  | fuel + 1, decorator, t :: ts =>
    match t.kind with
    | .newline =>
      if decorator then (splitItemFrom fuel (startsDecorator ts) ts).map (consFirst t)
      else .ok ([], t :: ts)
    | .dedent => .ok ([], t :: ts)
    | .closer => .ok ([], t :: ts)
    | .indent => splitTree (t :: ts)
    | .opener =>
      match splitTree (t :: ts) with
      | .error e => .error e
      | .ok (tree, rest) =>
        (splitItemFrom fuel decorator rest).map fun p => (tree ++ p.1, p.2)
    | _ => (splitItemFrom fuel decorator ts).map (consFirst t)

/-- Cuts off the item at the head of a stream. -/
def splitItem (ts : List Token) : Except Fault (List Token × List Token) :=
  splitItemFrom ts.length (startsDecorator ts) ts

/-- The tree of parameters behind the operator of a decorator, its parentheses included. -/
def splitParameters : List Token → Except Fault (List Token × List Token)
  | [] => .ok ([], [])
  | t :: ts => if t.isOpener "(" then splitTree (t :: ts) else .ok ([], t :: ts)

/-- A decorator: its name, its parameters and its item. -/
structure Decoration where
  name : Token
  parameters : List Token
  item : List Token

/-- The decorator at the head of a stream, and the tokens behind its item. -/
def Decoration.read (operator : String) :
    List Token → Except Fault (Option (Decoration × List Token))
  | sign :: name :: op :: ts =>
    if sign.isOperator "@" ∧ name.kind = .name ∧ op.isOperator operator then
      match splitParameters ts with
      | .error e => .error e
      | .ok (_, []) => .ok none
      | .ok (parameters, line :: behind) =>
        if line.kind = .newline then
          match splitItem behind with
          | .error e => .error e
          | .ok ([], _) => .error ⟨.malformed (.noItem name.text operator), sign.position⟩
          | .ok (item, rest) => .ok (some (⟨name, parameters, item⟩, rest))
        else .ok none
    else .ok none
  | _ => .ok none

/-- The newline behind what an item becomes: an item that ends in a block carries none itself. -/
def itemEnding (item out : List Token) : List Token :=
  let endsBlock := item.getLast?.any (·.kind == .dedent)
  let endsLine := out.getLast?.any fun t => t.kind == .newline || t.kind == .dedent
  if endsBlock && !endsLine then [Token.newline {}] else []

/-- Changes a decorator together with its item. -/
def decoratorHead (apply : Apply) (operator : String) (ts : List Token) :
    Expansion (Option HeadChange) := do
  match ← Expansion.ofExcept (Decoration.read operator ts) with
  | none => return none
  | some (d, rest) =>
    let out ← invoke apply d.name (d.parameters ++ d.item)
    return some ⟨ts.length - rest.length, out ++ itemEnding d.item out⟩

/-! ## All forms -/

/-- Tries a macro on the head of a stream. -/
def HeadMacro.changeHead (apply : Apply) : HeadMacro → List Token → Expansion (Option HeadChange)
  | .rules set, ts => .ofExcept (applyRulesToHead set.rules ts)
  | .declaration operator, ts => declareHead operator ts
  | .decorator operator, ts => decoratorHead apply operator ts
  | .call operator, ts => callHead apply operator ts

/-- Tries macros in order. One that needs the start of a line is passed over elsewhere. -/
def firstChange (apply : Apply) : List HeadMacro → Attempt
  | [], _, _ => pure none
  | head :: heads, lineStart, ts => do
    if head.needsLineStart && !lineStart then firstChange apply heads lineStart ts
    else
      match ← head.changeHead apply ts with
      | some change => return some change
      | none => firstChange apply heads lineStart ts

end TokenMacros
