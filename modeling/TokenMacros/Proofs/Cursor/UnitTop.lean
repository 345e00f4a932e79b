import TokenMacros.Proofs.Cursor.Heads
import TokenMacros.Proofs.Expansion.UnitInvocation

/-!
# Unit invocations by cursor

At the top of a unit, the pattern of an invocation is walked over the unit again and again,
what stands behind it is cut out, and the macro it names changes that. Whatever the macros do,
nothing outside of the unit is asked for:

    walkUnitTop operator find? fuel ts w ≠ .error .outside w'   (walkUnitTop_ne_outside)

Nothing bounds the invocations but that macros do not make the unit longer. Where that is
so, the walk gives what the reader of invocations gives:

    (∀ name step, find? name = some step → step.KeepsLength) → ts.length < fuel →
      walkUnitTop operator find? fuel ts =
        Expansion.within (runUnitTop operator find? ts)         (walkUnitTop_eq)
-/

namespace TokenMacros

/-! ## Algorithm -/

/-- Runs the invocations at the head of a stream. The loop has no bound of its own; here `fuel`
bounds it. -/
def walkInvocations (operator : String) (find? : String → Option UnitStep) :
    Nat → List Token → WalkStep (Option (List Token))
  | 0, _ => throw .endless
  | fuel + 1, ts => do
    match ← WalkStep.ofWalk ((unitInvocationPattern operator).walk ts 0) with
    | none => return none
    | some found =>
      let name ← WalkStep.ofWalk (found.captures.token "name")
      match find? name.text with
      | none => Expansion.within (.fail (.undefinedMacro name.text) name.position)
      | some step =>
        let rest ← WalkStep.ofWalk (slice ts found.stop ts.length)
        let changed ← Expansion.within (step (found.captures.tokens "parameters") rest)
        let next := changed.getD rest
        return some ((← walkInvocations operator find? fuel next).getD next)

/-- The line at the top of a unit that holds a string alone, and the tokens behind it. -/
def walkDocstring (ts : List Token) : Walk (List Token × List Token) :=
  match ts with
  | doc :: line :: _ => do
    if doc.kind = .string ∧ line.kind = .newline then
      return (← slice ts 0 2, ← slice ts 2 ts.length)
    else return ([], ts)
  | _ => return ([], ts)

/-- Runs the invocations at the top of a unit, fewer than `fuel` of them. -/
def walkUnitTop (operator : String) (find? : String → Option UnitStep) (fuel : Nat)
    (ts : List Token) : WalkStep (Option (List Token)) := do
  let (docstring, body) ← WalkStep.ofWalk (walkDocstring ts)
  return (← walkInvocations operator find? fuel body).map (docstring ++ ·)

/-- The step does not make more tokens than it gets. -/
def UnitStep.KeepsLength (step : UnitStep) : Prop :=
  ∀ parameters rest w out w', step parameters rest w = .ok (some out) w' →
    out.length ≤ parameters.length + rest.length

variable {operator : String} {find? : String → Option UnitStep} {ts rest : List Token}
  {w w' : Workspace}

/-! ## Invocations -/

theorem walk_unitInvocation_of_read_none (h : UnitInvocation.read operator ts = none) :
    (unitInvocationPattern operator).walk ts 0 = .ok none := by
  have hfinds := finds_unitInvocation operator ts
  rw [h, Option.map_none, Option.map_eq_none_iff] at hfinds
  exact Pattern.walk_of_finds_none (Nat.zero_le _) hfinds

/-- Where an invocation is read, the pattern has found it, and what stands behind it can be cut
out. -/
theorem exists_walk_unitInvocation {invocation : UnitInvocation}
    (h : UnitInvocation.read operator ts = some (invocation, rest)) : ∃ found,
      (unitInvocationPattern operator).walk ts 0 = .ok (some found) ∧
      found.captures.token "name" = .ok invocation.name ∧
      found.captures.tokens "parameters" = invocation.parameters ∧
      slice ts found.stop ts.length = .ok rest := by
  have hfinds := finds_unitInvocation operator ts
  rw [h, Option.map_some, Option.map_eq_some_iff] at hfinds
  obtain ⟨⟨captures, left⟩, hfinds, heq⟩ := hfinds
  obtain ⟨hname, heq⟩ := Prod.mk.inj heq
  obtain ⟨hparameters, rfl⟩ := Prod.mk.inj heq
  have hpos : 0 ≤ ts.length := Nat.zero_le _
  obtain ⟨used, -, happend, hwalk⟩ := Pattern.exists_walk_of_finds hpos hfinds
  refine ⟨_, hwalk, hname, hparameters, ?_⟩
  rw [slice_to_end (le_length_of_append happend hpos), drop_of_append happend]

/-- One round of the loop runs the invocation that is read. -/
theorem walkInvocations_succ (operator : String) (find? : String → Option UnitStep) (fuel : Nat)
    (ts : List Token) : walkInvocations operator find? (fuel + 1) ts =
      match UnitInvocation.read operator ts with
      | none => pure none
      | some (invocation, rest) =>
        match find? invocation.name.text with
        | none =>
          Expansion.within (.fail (.undefinedMacro invocation.name.text) invocation.name.position)
        | some step => do
          let next := (← Expansion.within (step invocation.parameters rest)).getD rest
          return some ((← walkInvocations operator find? fuel next).getD next) := by
  rw [walkInvocations]
  cases hread : UnitInvocation.read operator ts with
  | none =>
    rw [walk_unitInvocation_of_read_none hread]
    rfl
  | some found =>
    obtain ⟨invocation, rest⟩ := found
    obtain ⟨found, hwalk, hname, hparameters, hslice⟩ := exists_walk_unitInvocation hread
    simp only [hwalk, hname, hparameters, hslice, ofWalk_ok, WalkStep.pure_bind]

/-! ## Staying within the unit -/

theorem walkInvocations_ne_outside (operator : String) (find? : String → Option UnitStep)
    (fuel : Nat) (ts : List Token) (w w' : Workspace) :
    walkInvocations operator find? fuel ts w ≠ .error .outside w' := by
  induction fuel generalizing ts w w' with
  | zero => exact nofun
  | succ fuel ih =>
    rw [walkInvocations_succ]
    cases UnitInvocation.read operator ts with
    | none => exact nofun
    | some found =>
      obtain ⟨invocation, rest⟩ := found
      simp only
      cases find? invocation.name.text with
      | none => exact within_ne_outside _ w w'
      | some step =>
        refine WalkStep.bind_ne_outside (within_ne_outside _ w) (fun changed w₁ => ?_) w'
        exact WalkStep.bind_ne_outside (ih _ w₁) fun _ => WalkStep.pure_ne_outside _

theorem walkDocstring_eq (ts : List Token) : walkDocstring ts = .ok (splitDocstring ts) := by
  match ts with
  | [] => rfl
  | [doc] => rfl
  | doc :: line :: us =>
    rw [walkDocstring, splitDocstring]
    have happend : [doc, line] ++ us = (doc :: line :: us).drop 0 := rfl
    have hslice : slice (doc :: line :: us) 0 2 = .ok [doc, line] :=
      slice_of_append happend (Nat.zero_le _)
    split
    · rw [hslice, slice_to_end (Nat.le_add_left 2 us.length)]
      rfl
    · rfl

theorem walkUnitTop_eq_bind (operator : String) (find? : String → Option UnitStep) (fuel : Nat)
    (ts : List Token) : walkUnitTop operator find? fuel ts = do
      return (← walkInvocations operator find? fuel (splitDocstring ts).2).map
        ((splitDocstring ts).1 ++ ·) := by
  rw [walkUnitTop, walkDocstring_eq]
  rfl

/-- Whatever its macros do, the top of a unit is run without going outside of the unit. -/
theorem walkUnitTop_ne_outside (operator : String) (find? : String → Option UnitStep) (fuel : Nat)
    (ts : List Token) (w w' : Workspace) :
    walkUnitTop operator find? fuel ts w ≠ .error .outside w' := by
  rw [walkUnitTop_eq_bind]
  exact WalkStep.bind_ne_outside (walkInvocations_ne_outside operator find? fuel _ w)
    (fun _ => WalkStep.pure_ne_outside _) w'

/-! ## Rounds of the loop -/

theorem UnitMacro.step_keepsLength (m : UnitMacro) : m.step.KeepsLength := by
  intro parameters rest w out w' h
  cases m with
  | host m =>
    obtain ⟨hchange, -⟩ := EStateM.Result.ok.inj h
    exact m.length_le hchange
  | imports importer =>
    obtain ⟨_, w₁, -, hnone⟩ := Expansion.bind_eq_ok.1 h
    cases hnone

/-- Where no macro makes more tokens than it gets, the number of tokens bounds the rounds. -/
theorem walkInvocations_eq (hfind : ∀ name step, find? name = some step → step.KeepsLength)
    {fuel more : Nat} (hfuel : ts.length ≤ fuel) (hmore : ts.length < more) :
    walkInvocations operator find? more ts w =
      Expansion.within (runInvocations operator find? fuel ts) w := by
  induction fuel generalizing ts more w with
  | zero =>
    obtain ⟨more, rfl⟩ : ∃ n, more = n + 1 := ⟨more - 1, by omega⟩
    obtain rfl : ts = [] := List.length_eq_zero_iff.1 (Nat.le_zero.1 hfuel)
    rw [walkInvocations_succ]
    rfl
  | succ fuel ih =>
    obtain ⟨more, rfl⟩ : ∃ n, more = n + 1 := ⟨more - 1, by omega⟩
    rw [walkInvocations_succ, runInvocations]
    cases hread : UnitInvocation.read operator ts with
    | none => rfl
    | some found =>
      obtain ⟨invocation, rest⟩ := found
      have hlt := length_lt_of_unitInvocation_read hread
      simp only
      cases hstep : find? invocation.name.text with
      | none => rfl
      | some step =>
        simp only [within_bind, within_pure]
        refine WalkStep.bind_congr rfl fun changed w₁ hchanged => ?_
        have hnext : (changed.getD rest).length ≤ invocation.parameters.length + rest.length := by
          cases changed with
          | none => exact Nat.le_add_left _ _
          | some out => exact hfind _ step hstep _ _ _ _ _ (ok_of_within_eq_ok hchanged)
        exact WalkStep.bind_congr (ih (by omega) (by omega)) fun _ _ _ => rfl

/-- The top of a unit is run by cursor as it is when the invocations are read. -/
theorem walkUnitTop_eq (hfind : ∀ name step, find? name = some step → step.KeepsLength)
    {fuel : Nat} (hfuel : ts.length < fuel) : walkUnitTop operator find? fuel ts =
      Expansion.within (runUnitTop operator find? ts) := by
  funext w
  have hlen := congrArg List.length (splitDocstring_append ts)
  rw [List.length_append] at hlen
  rw [walkUnitTop_eq_bind, runUnitTop, within_bind]
  exact WalkStep.bind_congr (walkInvocations_eq hfind (Nat.le_refl _) (by omega))
    fun _ _ _ => rfl

end TokenMacros
