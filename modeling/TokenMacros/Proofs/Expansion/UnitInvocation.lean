import TokenMacros.Expansion.UnitTop
import TokenMacros.Proofs.Cursor.Declaration

/-!
# The pattern of a unit invocation

An invocation at the top of a unit can be told by a pattern,

    ! [ $name:name $( ( $($parameters:tt)* ) )? ] $($^)?

It captures what the reader of invocations gives (`finds_unitInvocation`), and leaves what
the reader leaves:

    (unitInvocationPattern operator).leaves ts =
      (UnitInvocation.read operator ts).map Prod.snd       (unitInvocationPattern_leaves)
-/

namespace TokenMacros

/-- `( $($parameters:tt)* )` -/
def parametersPattern : Pattern :=
  [.literal ⟨.opener, "(", {}⟩, .repetition [.capture "parameters" .tree {}] none .any,
    .literal ⟨.closer, ")", {}⟩]

/-- `! [ $name:name $( ( $($parameters:tt)* ) )? ] $($^)?` -/
def unitInvocationPattern (operator : String) : Pattern :=
  [.literal ⟨.operator, operator, {}⟩, .literal ⟨.opener, "[", {}⟩, .capture "name" .name {},
    .repetition parametersPattern none .optional, .literal ⟨.closer, "]", {}⟩,
    .repetition [.escape .newline] none .optional]

/-- The tokens that a pattern leaves. -/
def Pattern.leaves (p : Pattern) (ts : List Token) : Option (List Token) :=
  (p.read ts).map Reading.rest

/-! ## Parameters -/

theorem flatten_each_singleton (value : Captured) :
    (Captured.each [value]).flatten = value.flatten := by
  rw [Captured.flatten, Captured.leaves, Captured.leavesOfEach, Captured.leavesOfEach,
    List.append_nil, Captured.flatten]

theorem finds_parameters (ts : List Token) : parametersPattern.finds ts =
    (splitGroup "(" ts).map fun group =>
      ((∅ : Captures).insert "parameters" (capturedTrees group.1), group.2) := by
  rw [parametersPattern, ← treesNode, finds_parenGroup]
  cases splitGroup "(" ts <;> rfl

/-- The parameters that may stand behind the name are captured. -/
theorem finds_optionalParameters (nodes : Pattern) (ts : List Token) : ∃ value : Captured,
    Pattern.finds (.repetition parametersPattern none .optional :: nodes) ts =
      joinFinds ((∅ : Captures).insert "parameters" value)
        (Pattern.finds nodes ((splitGroup "(" ts).getD ([], ts)).2) ∧
    value.flatten = ((splitGroup "(" ts).getD ([], ts)).1 := by
  have hfinds := finds_parameters ts
  cases hgroup : splitGroup "(" ts with
  | none =>
    rw [hgroup, Option.map_none] at hfinds
    exact ⟨.each [], Pattern.finds_optional_of_none hfinds, rfl⟩
  | some group =>
    rw [hgroup, Option.map_some] at hfinds
    refine ⟨.each [capturedTrees group.1], Pattern.finds_optional_of_some hfinds, ?_⟩
    rw [flatten_each_singleton, flatten_capturedTrees (balanced_of_splitParen hgroup)]
    rfl

/-! ## Invocations -/

/-- What the pattern of an invocation finds: the name, the parameters, and what stands behind. -/
theorem finds_unitInvocation (operator : String) (ts : List Token) :
    ((unitInvocationPattern operator).finds ts).map
        (fun f => (f.1.token "name", f.1.tokens "parameters", f.2)) =
      (UnitInvocation.read operator ts).map fun f => (.ok f.1.name, f.1.parameters, f.2) := by
  have hop (t : Token) : t.same ⟨.operator, operator, {}⟩ = t.isOperator operator := rfl
  have hopen (t : Token) : t.same ⟨.opener, "[", {}⟩ = t.isOpener "[" := rfl
  have hclose (t : Token) : t.same ⟨.closer, "]", {}⟩ = t.isCloser "]" := rfl
  have hnewline (us : List Token) :
      Pattern.finds [.repetition [.escape .newline] none .optional] us = _ := finds_newline [] us
  match ts with
  | [] => rfl
  | [op] =>
    rw [unitInvocationPattern, Pattern.finds_literal]
    split <;> rfl
  | [op, bracket] =>
    rw [unitInvocationPattern, Pattern.finds_literal, Pattern.finds_literal]
    split_ifs <;> rfl
  | op :: bracket :: name :: us =>
    rw [UnitInvocation.read, unitInvocationPattern]
    simp only [Pattern.finds_literal, finds_name, hop, hopen, ite_and]
    split_ifs
    · obtain ⟨value, hfinds, hvalue⟩ := finds_optionalParameters
        [.literal ⟨.closer, "]", {}⟩, .repetition [.escape .newline] none .optional] us
      rw [hfinds]
      generalize (splitGroup "(" us).getD ([], us) = group at hvalue ⊢
      obtain ⟨parameters, behind⟩ := group
      cases behind with
      | nil => rfl
      | cons close rest =>
        rw [Pattern.finds_literal, hclose, hnewline]
        simp only
        split
        · show some ((Except.ok name : Walk Token), value.flatten, skipNewline rest) = _
          rw [hvalue]
          rfl
        · rfl
    all_goals rfl

theorem unitInvocationPattern_leaves (operator : String) (ts : List Token) :
    (unitInvocationPattern operator).leaves ts =
      (UnitInvocation.read operator ts).map Prod.snd := by
  have hfinds := congrArg (Option.map fun f => f.2.2) (finds_unitInvocation operator ts)
  rw [Pattern.finds, Option.map_map, Option.map_map, Option.map_map] at hfinds
  exact hfinds

/-- There is an invocation exactly where the pattern matches. -/
theorem UnitInvocation.read_eq_none_iff {operator : String} {ts : List Token} :
    UnitInvocation.read operator ts = none ↔
      (unitInvocationPattern operator).readAt ts 0 = none := by
  rw [Pattern.readAt, List.drop_zero, Option.map_eq_none_iff,
    ← Option.map_eq_none_iff (f := Prod.snd), ← unitInvocationPattern_leaves, Pattern.leaves,
    Option.map_eq_none_iff]

end TokenMacros
