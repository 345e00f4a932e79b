import TokenMacros.Expansion.Scan
import TokenMacros.Rule.Declaration
import TokenMacros.Rule.Filling
import TokenMacros.Rule.Reading

/-!
# Applying and declaring rules

Rules are tried in order. The first whose pattern matches decides: its template
is filled, and no later rule is tried, even if the filling fails.

A declaration of rules at the head of a stream is taken out, and its macro is
defined in the innermost scope.
-/

namespace TokenMacros

/-! ## Applying -/

/-- Applies the first rule that matches the whole stream. -/
def applyRules : List Rule → List Token → Except Fault (Option (List Token))
  | [], _ => .ok none
  | rule :: rules, ts =>
    match rule.pattern.readWhole ts with
    | none => applyRules rules ts
    | some captures => (rule.template.fill captures).map some

/-- Applies the first rule that matches a head of the stream. -/
def applyRulesToHead : List Rule → List Token → Except Fault (Option HeadChange)
  | [], _ => .ok none
  | rule :: rules, ts =>
    match rule.pattern.readAt ts 0 with
    | none => applyRulesToHead rules ts
    | some found => (rule.template.fill found.captures).map fun out => some ⟨found.stop, out⟩

/-! ## Declaring -/

/-- Defines the macro that is declared at the head of a stream. -/
def declareHead (operator : String) (ts : List Token) : Expansion (Option HeadChange) := do
  match ← Expansion.ofExcept (Declaration.read operator ts) with
  | none => return none
  | some (declaration, rest) =>
    .modifyEnvironment fun e =>
      e.define declaration.name (.rules ⟨declaration.name, declaration.rules⟩)
    return some ⟨ts.length - rest.length, []⟩

/-- Takes every declaration out of a stream. -/
def scanDeclarations (operator : String) (limit : Nat) : Transform :=
  scan (fun _ ts => declareHead operator ts) limit

end TokenMacros
