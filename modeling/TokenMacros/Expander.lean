import TokenMacros.Expansion.Run

/-!
# The expander

An expander expands source units: first the unit macros at their top run, then a
scan looks for declarations, decorators and calls.
-/

namespace TokenMacros

/-- Settings of an expander. -/
structure Settings where
  /-- Most splices in one scan. -/
  spliceLimit : Nat := 10000
  /-- The operator that marks invocations and declarations. -/
  operator : String := "!"
deriving DecidableEq

/-- Expands units. -/
structure Expander where
  settings : Settings := {}
  unitMacros : Table UnitMacro := ∅

namespace Expander

/-- Adds a unit macro; of two of one name the later counts. -/
def withUnitMacro (e : Expander) (name : String) (m : UnitMacro) : Expander :=
  { e with unitMacros := e.unitMacros.insert name m }

/-- Adds `import` over a store of modules. -/
def withImports (e : Expander) (store : Import.ModuleStore) : Expander :=
  e.withUnitMacro "import" (.imports ⟨store, e.settings.operator, e.settings.spliceLimit⟩)

/-- The macros of the scan, in the order in which they are tried. -/
def heads (e : Expander) : List HeadMacro :=
  [.declaration e.settings.operator, .decorator e.settings.operator, .call e.settings.operator]

/-- Both stages as one macro. -/
def stages (e : Expander) : Macro :=
  .chain [.unitTop e.settings.operator e.unitMacros, .heads e.heads e.settings.spliceLimit]

/-- Expands a balanced stream. Declarations go to the innermost scope and stay there. -/
def expand (e : Expander) (ts : List Token) : Expansion (List Token) := do
  .ofExcept (requireBalanced ts)
  return (← e.stages.run ts).getD ts

/-- Expands a stream in a scope of its own. -/
def expandScoped (e : Expander) (ts : List Token) : Expansion (List Token) :=
  .between Environment.openScope Environment.closeScope (e.expand ts)

/-- Expands a source text in a scope of its own. -/
def expandText (e : Expander) (source : String) : Expansion (List Token) := do
  e.expandScoped (← Expansion.ofExcept (tokenize source))

end Expander

/-- Defines the macros that a source text declares. -/
def loadText (source : String) : Expansion Unit := do
  discard <| Expander.expand {} (← Expansion.ofExcept (tokenize source))

/-- Defines the macros that a file declares. -/
def loadPath (files : Import.FileTree) (path : String) : Expansion Unit :=
  match files.read path.toList with
  | .error fault => .fail (.notImported path (.file fault)) {}
  | .ok source => loadText source

/-- Adds the macros that a source text declares to shared macros. -/
def loadShared (source : String) (shared : Scope) : Expansion Scope := fun w =>
  match loadText source { w with env := .ofShared ∅ } with
  | .ok () loaded => .ok (shared.merge loaded.env.current) { w with log := loaded.log }
  | .error e loaded => .error e { w with log := loaded.log }

end TokenMacros
