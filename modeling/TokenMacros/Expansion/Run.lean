import TokenMacros.Expansion.Head
import TokenMacros.Expansion.Import
import TokenMacros.Token.Printing

/-!
# Running macros

`Macro.runWith` says what each kind of macro does, given how macros are applied
that a head names. `Macro.runWithin` closes the circle: macros may run inside
each other up to a nesting limit.
-/

namespace TokenMacros

/-- Applies a step until it leaves the stream as it is, with `left` changes at most. `none` if
nothing changes. -/
def settle (step : Transform) (limit : Nat) : Nat → Transform
  | left, ts => do
    match ← step ts with
    | none => return none
    | some next =>
      if sameTokens next ts then return none
      else
        match left with
        | 0 => .fail (.tooManySplices limit) (firstPosition ts)
        | left + 1 => return some ((← settle step limit left next).getD next)

/-- A second step behind a first. -/
def andThen (first second : Transform) : Transform := fun ts => do
  match ← first ts with
  | none => second ts
  | some out => return some ((← second out).getD out)

mutual

/-- Runs a macro; `apply` runs the macros that a head names. -/
def Macro.runWith (apply : Apply) : Macro → Transform
  | .rules set, ts => .ofExcept (applyRules set.rules ts)
  | .stringify, ts => pure (some [quote ts])
  | .debug, ts => do
    Expansion.log (print ts)
    return some []
  | .fixpoint inner limit, ts => settle (fun us => inner.runWith apply us) limit limit ts
  | .chain macros, ts => Macro.runAll apply macros ts
  | .heads macros limit, ts => scan (firstChange apply macros) limit ts
  | .unitTop operator macros, ts =>
    runUnitTop operator (fun name => (macros.find? name).map UnitMacro.step) ts

/-- Runs macros one behind the other. -/
def Macro.runAll (apply : Apply) : List Macro → Transform
  | [], _ => pure none
  | m :: ms, ts => andThen (fun us => m.runWith apply us) (fun us => Macro.runAll apply ms us) ts

end

/-- Runs a macro, with up to `nesting` macros inside each other that a head names. -/
def Macro.runWithin : Nat → Apply
  | 0 => Macro.runWith fun _ ts => .fail .tooDeep (firstPosition ts)
  | nesting + 1 => Macro.runWith (Macro.runWithin nesting)

/-- How many macros may run inside each other. -/
def nestingLimit : Nat := 10000

/-- Runs a macro. -/
def Macro.run : Apply := Macro.runWithin nestingLimit

end TokenMacros
