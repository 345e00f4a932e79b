import TokenMacros.Text.Split

/-!
# Paths of modules

The module `a.b` lies in the file `root/a/b.extension`. A path is a text with
slashes; its last component is what stands behind the last slash, slashes at the
end and components `.` apart.

## Algorithm

The parts of the module are pushed onto the root one by one, then the extension
of the last component is replaced.
-/

namespace TokenMacros.Import

/-- A path with one more part. A slash is put between if none is there; a part that starts with
a slash is a path by itself. -/
def pushPart (path part : List Char) : List Char :=
  if part.head? = some '/' then part
  else if path = [] ∨ path.getLast? = some '/' then path ++ part
  else path ++ '/' :: part

/-- Length of the root slash or of the leading `.`, neither of which is a component to rename. -/
def anchorLength : List Char → Nat
  | '/' :: _ => 1
  | ['.'] => 1
  | '.' :: '/' :: _ => 1
  | _ => 0

/-- Drops slashes and components `.` from the head of a reversed path. -/
def dropIdleParts : List Char → List Char
  | '/' :: rest => dropIdleParts rest
  | ['.'] => []
  | '.' :: '/' :: rest => dropIdleParts rest
  | path => path

/-- Length of what follows the stem of a component, which is given in reverse: the last dot and
what is behind it. A dot that comes first in the component belongs to the stem. -/
def suffixLength (component : List Char) : Nat :=
  let n := (component.takeWhile (· ≠ '.')).length
  if n + 1 < component.length then n + 1 else 0

/-- The path with the extension of its last component replaced, without one if `extension` is
empty. A path without a last component, or with the last component `..`, stays as it is. -/
def replaceExtension (path extension : List Char) : List Char :=
  let anchor := anchorLength path
  let body := dropIdleParts (path.drop anchor).reverse
  let component := body.takeWhile (· ≠ '/')
  if component = [] ∨ component = ['.', '.'] then path
  else
    path.take anchor ++ (body.drop (suffixLength component)).reverse
      ++ (if extension = [] then [] else '.' :: extension)

/-- The path of a module under a root. -/
def modulePath (root extension module : List Char) : List Char :=
  replaceExtension ((Text.splitOn '.' module).foldl pushPart root) extension

end TokenMacros.Import
