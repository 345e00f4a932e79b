import TokenMacros.Import.ModuleStore
import TokenMacros.Rule.Basic

/-!
# Macros

The kinds of macro. A `Macro` changes a whole stream, a `HeadMacro` the head of
a stream, a `UnitMacro` the rest of a unit behind an invocation at its top. What
each of them does is told in `TokenMacros.Expansion`.
-/

namespace TokenMacros

/-- Rules in order under a name. -/
structure RuleSet where
  name : String
  rules : List Rule

/-- Brings in the declarations of other modules. -/
structure Importer where
  store : Import.ModuleStore
  /-- The operator that marks invocations and declarations in the modules. -/
  operator : String
  /-- Most splices in the scan of a module. -/
  limit : Nat

/-- What a host program has done at the top of a unit: a function of the parameters and the rest
of the unit, with `none` where the rest stays. It makes no more tokens than it gets, so that the
invocations come to an end, and does not look at where they stand. -/
structure HostMacro where
  change : List Token → List Token → Option (List Token)
  length_le : ∀ {parameters rest out : List Token}, change parameters rest = some out →
    out.length ≤ parameters.length + rest.length
  bare_change : ∀ {parameters parameters' rest rest' : List Token},
    parameters.map Token.bare = parameters'.map Token.bare →
    rest.map Token.bare = rest'.map Token.bare →
    (change parameters rest).map (List.map Token.bare) =
      (change parameters' rest').map (List.map Token.bare)

/-- The host program that leaves every unit as it is. -/
instance : Inhabited HostMacro := ⟨fun _ _ => none, nofun, fun _ _ => rfl⟩

/-- A macro that is invoked at the top of a unit. -/
inductive UnitMacro
  /-- Changes the rest of the unit as the host program tells. -/
  | host (change : HostMacro)
  /-- Imports the module that the parameters name. -/
  | imports (importer : Importer)

/-- A macro that changes the head of a stream. -/
inductive HeadMacro
  | rules (set : RuleSet)
  /-- `macro_rules! name:` with a block of rules: defines the macro. -/
  | declaration (operator : String)
  /-- `@name!` on a line of its own: applies the macro to the item below. -/
  | decorator (operator : String)
  /-- `name!(...)`, `name![...]`, braces or `name!:` with a block: applies the macro. -/
  | call (operator : String)

/-- Does the macro work only at the start of a logical line? -/
def HeadMacro.needsLineStart : HeadMacro → Bool
  | .decorator _ => true
  | _ => false

/-- A macro that changes a whole stream. -/
inductive Macro
  | rules (set : RuleSet)
  /-- One string with the text of the stream. -/
  | stringify
  /-- Logs the text of the stream, and drops the stream. -/
  | debug
  /-- Applies a macro until it changes nothing, `limit` times at most. -/
  | fixpoint (inner : Macro) (limit : Nat)
  /-- Applies each macro to what the one before made. -/
  | chain (macros : List Macro)
  /-- Scans for heads that one of the macros changes, with `limit` splices at most. -/
  | heads (macros : List HeadMacro) (limit : Nat)
  /-- Runs the invocations at the top of a unit. -/
  | unitTop (operator : String) (macros : Table UnitMacro)

instance : Inhabited Macro := ⟨.stringify⟩

end TokenMacros
