import TokenMacros.Expansion.Basic
import TokenMacros.Rule.Declaration

/-!
# Invocations at the top of a unit

A unit may start with invocations of unit macros, behind at most one line that
holds nothing but a string:

    ! [ name ]
    ! [ name ( parameters ) ]

Each is taken out, and its macro gets the parameters and the rest of the unit.
No macro makes the rest longer than the unit was with the invocation, so the
number of tokens bounds the invocations.
-/

namespace TokenMacros

/-- An invocation at the top of a unit. -/
structure UnitInvocation where
  name : Token
  parameters : List Token

/-- The invocation at the head of a stream, and the tokens behind it and its newline. -/
def UnitInvocation.read (operator : String) :
    List Token → Option (UnitInvocation × List Token)
  | op :: bracket :: name :: ts =>
    if op.isOperator operator ∧ bracket.isOpener "[" ∧ name.kind = .name then
      let (parameters, behind) := (splitGroup "(" ts).getD ([], ts)
      match behind with
      | [] => none
      | close :: rest =>
        if close.isCloser "]" then some (⟨name, parameters⟩, skipNewline rest) else none
    else none
  | _ => none

/-- Applies a unit macro to its parameters and the rest of the unit. -/
abbrev UnitStep := List Token → Transform

/-- Runs the invocations at the head of a stream, `fuel` of them at most; `find?` gives the macros
by name. -/
def runInvocations (operator : String) (find? : String → Option UnitStep) : Nat → Transform
  | 0, _ => pure none
  | fuel + 1, ts =>
    match UnitInvocation.read operator ts with
    | none => pure none
    | some (invocation, rest) =>
      match find? invocation.name.text with
      | none => .fail (.undefinedMacro invocation.name.text) invocation.name.position
      | some step => do
        let next := (← step invocation.parameters rest).getD rest
        return some ((← runInvocations operator find? fuel next).getD next)

/-- The line at the top of a unit that holds a string alone, and the tokens behind it. -/
def splitDocstring : List Token → List Token × List Token
  | doc :: line :: ts =>
    if doc.kind = .string ∧ line.kind = .newline then ([doc, line], ts) else ([], doc :: line :: ts)
  | ts => ([], ts)

/-- Runs the invocations at the top of a unit; `none` if there are none. -/
def runUnitTop (operator : String) (find? : String → Option UnitStep) : Transform := fun ts => do
  let (docstring, body) := splitDocstring ts
  return (← runInvocations operator find? body.length body).map (docstring ++ ·)

end TokenMacros
