import TokenMacros.Fault
import TokenMacros.Rule.Captured
import TokenMacros.Rule.Pattern

/-!
# Filling a template

A template writes a stream from captures, from left to right. A path of indexes
tells which round of each repetition around is written; a repetition has as many
rounds as the captures inside it that still repeat at its path.

## Algorithm

`Template.holes` lists the holes of a template, `roundCount` compares their
counts, `Template.write` writes.
-/

namespace TokenMacros

/-! ## Counting -/

mutual

/-- The holes of a node, those in repetitions too. -/
def TemplateNode.holes : TemplateNode → List (String × Position)
  | .hole name position => [(name, position)]
  | .repetition inner _ => Template.holes inner
  | .literal _ | .escape _ => []

/-- The holes of a template, from left to right. -/
def Template.holes : Template → List (String × Position)
  | [] => []
  | node :: nodes => node.holes ++ Template.holes nodes

end

/-- The value that a hole asks for. -/
def valueOf (captures : Captures) (name : String) (position : Position) :
    Except Fault Captured :=
  match captures.find? name with
  | none => .error ⟨.unknownCapture name, position⟩
  | some c => .ok c

/-- The count that the holes agree on, and the first name that has it; `count` is what the holes
before have found. -/
def agreedCount (captures : Captures) (path : List Nat) (count : Option (Nat × String)) :
    List (String × Position) → Except Fault (Option (Nat × String))
  | [] => .ok count
  | (name, position) :: rest =>
    match valueOf captures name position with
    | .error e => .error e
    | .ok c =>
      match (c.along path).bind Captured.count? with
      | none => agreedCount captures path count rest
      | some found =>
        match count with
        | none => agreedCount captures path (some (found, name)) rest
        | some (expected, first) =>
          if expected = found then agreedCount captures path count rest
          else .error ⟨.count (.differ first expected name found), position⟩

/-- The number of rounds of a repetition of `inner` at a path. -/
def roundCount (captures : Captures) (path : List Nat) (inner : Template) : Except Fault Nat :=
  let holes := inner.holes
  match agreedCount captures path none holes with
  | .error e => .error e
  | .ok (some (count, _)) => .ok count
  | .ok none => .error ⟨.count .nothingRepeats, (holes.head?.map Prod.snd).getD {}⟩

/-! ## Writing -/

/-- The tokens that fill a hole at a path. -/
def writeHole (captures : Captures) (path : List Nat) (name : String) (position : Position) :
    Except Fault (List Token) :=
  match valueOf captures name position with
  | .error e => .error e
  | .ok c =>
    match c.along path with
    | some (.once tokens) => .ok tokens
    | some (.each rounds) =>
      .error ⟨.stillRepeating name (path.length + (Captured.each rounds).levels) path.length,
        position⟩
    | none => .error ⟨.count (.noValue name), position⟩

/-- Writes the rounds `index`, `index + 1`, ... of a repetition, `left` of them; the separator
stands before all but the one of index 0. -/
def writeRounds (body : Nat → Except Fault (List Token)) (separator : Option Token) :
    Nat → Nat → Except Fault (List Token)
  | _, 0 => .ok []
  | index, left + 1 =>
    match body index with
    | .error e => .error e
    | .ok here =>
      (writeRounds body separator (index + 1) left).map fun rest =>
        (if index = 0 then [] else separator.toList) ++ here ++ rest

mutual

/-- Writes a node at a path. -/
def TemplateNode.write (captures : Captures) :
    TemplateNode → List Nat → Except Fault (List Token)
  | .literal token, _ => .ok [token]
  | .escape escape, _ => .ok [escape.token {}]
  | .hole name position, path => writeHole captures path name position
  | .repetition inner separator, path =>
    match roundCount captures path inner with
    | .error e => .error e
    | .ok count =>
      writeRounds (fun index => Template.write captures inner (path ++ [index])) separator 0 count

/-- Writes nodes at a path, from left to right. -/
def Template.write (captures : Captures) : Template → List Nat → Except Fault (List Token)
  | [], _ => .ok []
  | node :: nodes, path =>
    match node.write captures path with
    | .error e => .error e
    | .ok here => (Template.write captures nodes path).map (here ++ ·)

end

/-- The stream that a template writes from captures. -/
def Template.fill (t : Template) (captures : Captures) : Except Fault (List Token) :=
  t.write captures []

end TokenMacros
