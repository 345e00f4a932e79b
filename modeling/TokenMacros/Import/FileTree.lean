import TokenMacros.Fault
import TokenMacros.Text.Split

/-!
# Files

A tree of files below the current directory. Nothing is known about the
directories around it, except that they are directories.
-/

namespace TokenMacros.Import

/-- Files by their components, starting at the current directory. -/
structure FileTree where
  files : List (List (List Char) × String) := []

/-- Where a path has led. -/
inductive Place
  | file (content : String)
  | directory (components : List (List Char))
  /-- A directory that is not below the current one. -/
  | outside

namespace FileTree

/-- The components of a relative path that name something. -/
def components (path : String) : List (List Char) :=
  (Text.splitOn '/' path.toList).filter fun c => c ≠ [] ∧ c ≠ ['.']

/-- The tree of files given by their paths. -/
def ofList (files : List (String × String)) : FileTree :=
  ⟨files.map fun f => (components f.1, f.2)⟩

/-- What lies at these components. -/
def find? (t : FileTree) (path : List (List Char)) : Option Place :=
  match t.files.find? fun f => f.1 = path with
  | some f => some (.file f.2)
  | none =>
    if t.files.any fun f => path.isPrefixOf f.1 then some (.directory path) else none

/-- Follows one component. -/
def follow (t : FileTree) (place : Place) (component : List Char) : Except FileFault Place :=
  match place with
  | .file _ => .error .notDirectory
  | .outside =>
    if component = [] ∨ component = ['.'] ∨ component = ['.', '.'] then .ok .outside
    else .error .notFound
  | .directory here =>
    if component = [] ∨ component = ['.'] then .ok (.directory here)
    else if component = ['.', '.'] then
      .ok (if here = [] then .outside else .directory here.dropLast)
    else
      match t.find? (here ++ [component]) with
      | some place => .ok place
      | none => .error .notFound

/-- Follows components one by one. -/
def followAll (t : FileTree) : Place → List (List Char) → Except FileFault Place
  | place, [] => .ok place
  | place, c :: cs =>
    match t.follow place c with
    | .error e => .error e
    | .ok next => t.followAll next cs

/-- The content of the file at a path. -/
def read (t : FileTree) (path : List Char) : Except FileFault String :=
  if path = [] then .error .notFound
  else
    let origin := if path.head? = some '/' then Place.outside else .directory []
    match t.followAll origin (Text.splitOn '/' path) with
    | .error e => .error e
    | .ok (.file content) => .ok content
    | .ok _ => .error .isDirectory

end FileTree

end TokenMacros.Import
