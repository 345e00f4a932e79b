import TokenMacros.Macro

/-!
# Environments

What is defined. Scopes nest, and there is always at least one. A name is looked
up from the innermost scope outwards, and last among the shared macros, which
all units see. The outermost scope starts with the macros `stringify` and `debug`.

    (e.define n m).find? n = some m                        (find?_define_self)
    e.openScope.closeScope = e                             (closeScope_openScope)
-/

namespace TokenMacros

/-- Macros by name. -/
abbrev Scope := Table Macro

/-- The macros that are defined, and the imports under way. -/
structure Environment where
  /-- The innermost scope, which definitions go to. -/
  current : Scope
  /-- The scopes around it, from inner to outer. -/
  outer : List Scope
  /-- Macros for every unit; fixed before the first unit is expanded. -/
  shared : Scope
  /-- Modules that are being imported, the innermost first. -/
  importing : List String

namespace Environment

/-- The macros that are always there. -/
def builtins : Scope := .ofList [("stringify", .stringify), ("debug", .debug)]

/-- The builtins, one scope for definitions, and shared macros. -/
def ofShared (shared : Scope) : Environment := ⟨∅, [builtins], shared, []⟩

instance : Inhabited Environment := ⟨ofShared ∅⟩

/-- The macro of a name. -/
def find? (e : Environment) (name : String) : Option Macro :=
  ((e.current :: e.outer).findSome? (·.find? name)).or (e.shared.find? name)

/-- Does a name stand for a macro? -/
def knows (e : Environment) (name : String) : Bool := (e.find? name).isSome

/-- Defines a macro in the innermost scope. -/
def define (e : Environment) (name : String) (m : Macro) : Environment :=
  { e with current := e.current.insert name m }

/-- Opens a scope. -/
def openScope (e : Environment) : Environment :=
  { e with current := ∅, outer := e.current :: e.outer }

/-- Closes the innermost scope, unless it is the only one. -/
def closeScope (e : Environment) : Environment :=
  match e.outer with
  | [] => e
  | scope :: outer => { e with current := scope, outer := outer }

/-- The number of scopes. -/
def scopeCount (e : Environment) : Nat := e.outer.length + 1

/-- Marks a module as being imported. -/
def enterModule (e : Environment) (module : String) : Environment :=
  { e with importing := module :: e.importing }

/-- Takes the mark off the module that was marked last. -/
def leaveModule (e : Environment) : Environment := { e with importing := e.importing.tail }

@[simp] theorem closeScope_openScope (e : Environment) : e.openScope.closeScope = e := rfl

@[simp] theorem leaveModule_enterModule (e : Environment) (module : String) :
    (e.enterModule module).leaveModule = e := rfl

theorem find?_define_self (e : Environment) (name : String) (m : Macro) :
    (e.define name m).find? name = some m := by
  simp [find?, define]

end Environment

end TokenMacros
