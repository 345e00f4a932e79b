import TokenMacros.Import.FileTree
import TokenMacros.Import.ModulePath
import TokenMacros.Table

/-!
# Stores of modules

Where the sources of imported modules come from.
-/

namespace TokenMacros.Import

/-- A store of modules. -/
inductive ModuleStore
  /-- Sources by dotted path. -/
  | listed (modules : Table String)
  /-- Files below a root directory. -/
  | files (tree : FileTree) (root extension : String)

namespace ModuleStore

/-- The source of a module. -/
def source (s : ModuleStore) (module : String) : Except ImportFault String :=
  match s with
  | .listed modules =>
    match modules.find? module with
    | some text => .ok text
    | none => .error (.noModule module)
  | .files tree root extension =>
    match tree.read (modulePath root.toList extension.toList module.toList) with
    | .ok text => .ok text
    | .error fault => .error (.file fault)

/-- The number of modules or files. -/
def size : ModuleStore → Nat
  | .listed modules => modules.size
  | .files tree _ _ => tree.files.length

end ModuleStore

end TokenMacros.Import
