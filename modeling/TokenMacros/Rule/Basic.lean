import TokenMacros.Fault
import TokenMacros.Rule.Pattern
import TokenMacros.Table

/-!
# Rules

A rule is a pattern with a template that fits it. Fitting means:

- no two captures of the pattern have one name;
- the variants of a choice capture the same names at the same depths;
- every hole names a capture, and stands in at least as many repetitions
  as the capture does.

A lookahead is checked by itself, and its captures are not seen outside.

    Rule.make p t = .ok r ↔ r.pattern = p ∧ r.template = t (Rule.make_eq_ok_iff)
    Rule.make p t = .error e ↔ Rule.fit p t = .error e     (Rule.make_eq_error_iff)
-/

namespace TokenMacros

/-- The repetitions around each capture of a pattern. -/
abbrev Depths := Table Nat

namespace Depths

/-- Adds a capture; its name must be new. -/
def add (name : String) (depth : Nat) (position : Position) (seen : Depths) :
    Except Fault Depths :=
  if seen.contains name then .error ⟨.duplicateCapture name, position⟩
  else .ok (seen.insert name depth)

/-- Adds captures one by one. -/
def addAll (position : Position) : List (String × Nat) → Depths → Except Fault Depths
  | [], seen => .ok seen
  | (name, depth) :: rest, seen =>
    match seen.add name depth position with
    | .error e => .error e
    | .ok seen => addAll position rest seen

end Depths

/-! ## Patterns -/

mutual

/-- Adds the captures of a node that stands in `depth` repetitions. -/
def PatternNode.addDepths (depth : Nat) : PatternNode → Depths → Except Fault Depths
  | .literal _, seen => .ok seen
  | .escape _, seen => .ok seen
  | .capture name _ position, seen => seen.add name depth position
  | .repetition inner _ _, seen => Pattern.addDepths (depth + 1) inner seen
  | .choice variants position, seen =>
    match Pattern.choiceDepths depth position variants none with
    | .error e => .error e
    | .ok bound => seen.addAll position (bound.getD ∅).entries
  | .lookahead inner, seen =>
    match Pattern.addDepths depth inner ∅ with
    | .error e => .error e
    | .ok _ => .ok seen

/-- Adds the captures of nodes that stand in `depth` repetitions. -/
def Pattern.addDepths (depth : Nat) : Pattern → Depths → Except Fault Depths
  | [], seen => .ok seen
  | node :: nodes, seen =>
    match node.addDepths depth seen with
    | .error e => .error e
    | .ok seen => Pattern.addDepths depth nodes seen

/-- The captures that all variants share; `expected` are those of the variants before. -/
def Pattern.choiceDepths (depth : Nat) (position : Position) :
    List Pattern → Option Depths → Except Fault (Option Depths)
  | [], expected => .ok expected
  | variant :: variants, expected =>
    match Pattern.addDepths depth variant ∅ with
    | .error e => .error e
    | .ok bound =>
      match expected with
      | none => Pattern.choiceDepths depth position variants (some bound)
      | some first =>
        if first.sameAs bound then Pattern.choiceDepths depth position variants (some first)
        else .error ⟨.choiceMismatch, position⟩

end

/-- The captures of a pattern with their depths. -/
def Pattern.depths (p : Pattern) : Except Fault Depths := p.addDepths 0 ∅

/-! ## Templates -/

mutual

/-- Refuses a hole that stands in too few repetitions or names no capture. -/
def TemplateNode.fit (declared : Depths) (depth : Nat) : TemplateNode → Except Fault Unit
  | .literal _ => .ok ()
  | .escape _ => .ok ()
  | .hole name position =>
    match declared.find? name with
    | none => .error ⟨.unknownCapture name, position⟩
    | some d => if depth < d then .error ⟨.stillRepeating name d depth, position⟩ else .ok ()
  | .repetition inner _ => Template.fit declared (depth + 1) inner

/-- Refuses nodes whose holes do not fit, in a place that stands in `depth` repetitions. -/
def Template.fit (declared : Depths) (depth : Nat) : Template → Except Fault Unit
  | [] => .ok ()
  | node :: nodes =>
    match node.fit declared depth with
    | .error e => .error e
    | .ok _ => Template.fit declared depth nodes

end

/-! ## Rules -/

/-- Refuses a template that does not fit the pattern, and a pattern that no template fits. -/
def Rule.fit (pattern : Pattern) (template : Template) : Except Fault Unit :=
  match pattern.depths with
  | .error e => .error e
  | .ok declared => template.fit declared 0

/-- A pattern and a template that fits it. -/
structure Rule where
  pattern : Pattern
  template : Template
  fits : Rule.fit pattern template = .ok ()

/-- The rule of a pattern and a template, if they fit. -/
def Rule.make (pattern : Pattern) (template : Template) : Except Fault Rule :=
  match h : Rule.fit pattern template with
  | .error e => .error e
  | .ok () => .ok ⟨pattern, template, h⟩

theorem Rule.make_eq_ok_iff {pattern : Pattern} {template : Template} {r : Rule} :
    Rule.make pattern template = .ok r ↔
      r.pattern = pattern ∧ r.template = template := by
  unfold Rule.make
  constructor
  · intro h
    split at h
    · simp at h
    · cases h
      exact ⟨rfl, rfl⟩
  · rintro ⟨rfl, rfl⟩
    split
    · rename_i e he
      rw [r.fits] at he
      cases he
    · rfl

theorem Rule.make_eq_error_iff {pattern : Pattern} {template : Template} {e : Fault} :
    Rule.make pattern template = .error e ↔ Rule.fit pattern template = .error e := by
  unfold Rule.make
  split
  · next e' he => rw [he, Except.error.injEq, Except.error.injEq]
  · next hfit => simp [hfit]

end TokenMacros
