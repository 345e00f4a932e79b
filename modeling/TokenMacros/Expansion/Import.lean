import TokenMacros.Expansion.Rules
import TokenMacros.Expansion.UnitTop
import TokenMacros.Source.Layout
import TokenMacros.Token.Printing

/-!
# Importing

`![import(a.b)]` brings the declarations of a module, and of the modules that it
imports in turn, into the innermost scope. Nothing else of a module counts. A
module that is being imported cannot be imported again within.
-/

namespace TokenMacros

/-- Names with points between them. -/
def isModulePath : List Token → Bool
  | [name] => name.kind == .name
  | name :: point :: ts => name.kind == .name && point.isOperator "." && isModulePath ts
  | [] => false

/-- The dotted path that tokens spell. -/
def modulePathText (ts : List Token) : String := String.join (ts.map Token.text)

namespace Importer

/-- Imports the module that the parameters name, with `fuel` imports within each other at most. -/
def importWithin (i : Importer) : Nat → List Token → Expansion Unit
  | 0, parameters => .fail .tooDeep (firstPosition parameters)
  | fuel + 1, parameters => do
    let position := firstPosition parameters
    if isModulePath parameters then
      let module := modulePathText parameters
      if (← Expansion.environment).importing.contains module then
        .fail (.notImported module .cycle) position
      else
        .between (·.enterModule module) (·.leaveModule) do
          match i.store.source module with
          | .error fault => .fail (.notImported module fault) position
          | .ok source =>
            let ts ← Expansion.ofExcept (tokenize source)
            let step : UnitStep := fun parameters _ => do
              importWithin i fuel parameters
              return none
            let find? := fun name => if name = "import" then some step else none
            let rest := (← runUnitTop i.operator find? ts).getD ts
            discard <| scanDeclarations i.operator i.limit rest
    else .fail (.notImported (print parameters) .badPath) position

/-- Imports a module. Imports within each other are of different modules, so there are no more
than the store has; one more fails to load, and the first may be named in an unusual way. -/
def run (i : Importer) (parameters : List Token) : Expansion Unit :=
  i.importWithin (i.store.size + 2) parameters

end Importer

/-- What a unit macro does. -/
def UnitMacro.step : UnitMacro → UnitStep
  | .host m, parameters, rest => pure (m.change parameters rest)
  | .imports importer, parameters, _ => do
    importer.run parameters
    return none

end TokenMacros
