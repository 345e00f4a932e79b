import TokenMacros.Table
import TokenMacros.Token.Basic

/-!
# Captured values

What a capture holds: tokens, or, for a capture in a repetition, one value for
every round. A path of indexes leads through the rounds of nested repetitions.
-/

namespace TokenMacros

/-- The value of a capture. A capture that stands in `d` repetitions has `d` levels of `each`. -/
inductive Captured
  | once (tokens : List Token)
  | each (rounds : List Captured)

/-- The values of captures by name. -/
abbrev Captures := Table Captured

namespace Captured

instance : Inhabited Captured := ⟨.once []⟩

/-- The value of a capture in `d` repetitions that was not reached. -/
def unreached : Nat → Captured
  | 0 => .once []
  | _ + 1 => .each []

/-- The value at the end of a path. One that does not repeat stands for all its rounds. -/
def along : Captured → List Nat → Option Captured
  | c, [] => some c
  | .once tokens, _ :: _ => some (.once tokens)
  | .each rounds, i :: path =>
    match rounds[i]? with
    | none => none
    | some c => c.along path

/-- Levels of repetition, seen along the first rounds. -/
def levels : Captured → Nat
  | .once _ => 0
  | .each [] => 1
  | .each (c :: _) => c.levels + 1

/-- The number of rounds, if the value repeats. -/
def count? : Captured → Option Nat
  | .once _ => none
  | .each rounds => some rounds.length

@[simp] theorem along_nil (c : Captured) : c.along [] = some c := by
  cases c <;> rfl

@[simp] theorem along_once (tokens : List Token) (path : List Nat) :
    (once tokens).along path = some (.once tokens) := by
  cases path <;> rfl

theorem along_append (c : Captured) (first second : List Nat) :
    c.along (first ++ second) = (c.along first).bind fun x => x.along second := by
  induction first generalizing c with
  | nil => rw [List.nil_append, along_nil, Option.bind_some]
  | cons i first ih =>
    cases c with
    | once tokens => simp
    | each rounds =>
      rw [List.cons_append, along, along]
      cases rounds[i]? with
      | none => rfl
      | some inner => exact ih inner

theorem along_each_singleton (rounds : List Captured) (i : Nat) :
    (Captured.each rounds).along [i] = rounds[i]? := by
  rw [along]
  cases rounds[i]? with
  | none => rfl
  | some c => exact along_nil c

end Captured

end TokenMacros
