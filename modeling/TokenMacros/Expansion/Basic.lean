import TokenMacros.Environment

/-!
# Expansion steps

An expansion step reads and changes the environment, logs texts, and ends with a
value or a fault. What was defined or logged before a fault stays.
-/

namespace TokenMacros

/-- What expansion works on. -/
structure Workspace where
  env : Environment
  /-- The texts that were logged, the latest last. -/
  log : List String := []

instance : Inhabited Workspace := ⟨{ env := default }⟩

/-- A step of expansion. -/
abbrev Expansion := EStateM Fault Workspace

namespace Expansion

variable {α : Type}

/-- Ends with a fault at a place. -/
def fail (cause : Cause) (position : Position) : Expansion α := throw ⟨cause, position⟩

/-- The step of a value or a fault that no workspace takes part in. -/
def ofExcept : Except Fault α → Expansion α
  | .ok a => pure a
  | .error e => throw e

/-- The environment. -/
def environment : Expansion Environment := fun w => .ok w.env w

/-- Changes the environment. -/
def modifyEnvironment (f : Environment → Environment) : Expansion Unit := fun w =>
  .ok () { w with env := f w.env }

/-- Logs a text. -/
def log (text : String) : Expansion Unit := fun w => .ok () { w with log := w.log ++ [text] }

/-- Changes the environment by `before`, takes the step, and changes it by `after` whether or not
the step fails. -/
def between (before after : Environment → Environment) (step : Expansion α) : Expansion α :=
  fun w =>
    match step { w with env := before w.env } with
    | .ok a w => .ok a { w with env := after w.env }
    | .error e w => .error e { w with env := after w.env }

end Expansion

/-- Changes a stream; `none` where the stream is not accepted or stays as it is. -/
abbrev Transform := List Token → Expansion (Option (List Token))

/-- What takes the place of the head of a stream. -/
structure HeadChange where
  /-- The number of tokens that go. -/
  length : Nat
  /-- The tokens that come. -/
  tokens : List Token

end TokenMacros
