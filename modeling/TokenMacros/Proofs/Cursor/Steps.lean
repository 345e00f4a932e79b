import TokenMacros.Proofs.Cursor.Basic
import TokenMacros.Proofs.Expansion.Step

/-!
# Steps of expansion that walk

A step that walks through streams may end in one more way than a step of expansion does:
outside of a stream. A step of expansion is one that never ends there, whatever it does:

    Expansion.within x w ≠ .error .outside w'                          (within_ne_outside)
    Expansion.within (x >>= f) = Expansion.within x >>= fun a => Expansion.within (f a)
                                                                       (within_bind)
-/

namespace TokenMacros

/-- A step of expansion that walks through streams. -/
abbrev WalkStep := EStateM Stop Workspace

/-- The step of a walk that no workspace takes part in. -/
def WalkStep.ofWalk {α : Type} : Walk α → WalkStep α
  | .ok a => pure a
  | .error stop => throw stop

/-- A step of expansion, as one that stays within its streams. -/
def Expansion.within {α : Type} (step : Expansion α) : WalkStep α := fun w =>
  match step w with
  | .ok a w => .ok a w
  | .error e w => .error (.fault e) w

variable {α β : Type} {x : WalkStep α} {f : α → WalkStep β} {w w' : Workspace}

theorem within_of_ok {x : Expansion α} {a : α} (h : x w = .ok a w') :
    Expansion.within x w = .ok a w' := by
  rw [Expansion.within, h]

theorem within_of_error {x : Expansion α} {e : Fault} (h : x w = .error e w') :
    Expansion.within x w = .error (.fault e) w' := by
  rw [Expansion.within, h]

theorem within_bind (x : Expansion α) (f : α → Expansion β) :
    Expansion.within (x >>= f) = Expansion.within x >>= fun a => Expansion.within (f a) := by
  funext w
  show _ = EStateM.bind (Expansion.within x) (fun a => Expansion.within (f a)) w
  cases h : x w with
  | ok a w' =>
    rw [EStateM.bind, within_of_ok h, Expansion.within, Expansion.bind_of_ok h]
    rfl
  | error e w' =>
    rw [EStateM.bind, within_of_error h, Expansion.within, Expansion.bind_of_error h]

@[simp] theorem within_pure (a : α) : Expansion.within (pure a) = pure a := rfl

@[simp] theorem within_ofExcept (x : Except Fault α) :
    Expansion.within (.ofExcept x) = WalkStep.ofWalk (Walk.within x) := by
  cases x <;> rfl

@[simp] theorem ofWalk_ok (a : α) : WalkStep.ofWalk (.ok a) = pure a := rfl

@[simp] theorem WalkStep.pure_bind (a : α) (f : α → WalkStep β) : pure a >>= f = f a := rfl

/-! ## Runs -/

theorem WalkStep.bind_of_ok {a : α} (h : x w = .ok a w') : (x >>= f) w = f a w' := by
  show EStateM.bind x f w = _
  rw [EStateM.bind, h]

theorem WalkStep.bind_of_error {stop : Stop} (h : x w = .error stop w') :
    (x >>= f) w = .error stop w' := by
  show EStateM.bind x f w = _
  rw [EStateM.bind, h]

/-- Steps that agree where they start, and then wherever the first part ends, agree. -/
theorem WalkStep.bind_congr {y : WalkStep α} {g : α → WalkStep β} (hx : x w = y w)
    (hf : ∀ a w₁, y w = .ok a w₁ → f a w₁ = g a w₁) : (x >>= f) w = (y >>= g) w := by
  cases hy : y w with
  | ok a w₁ => rw [bind_of_ok (hx.trans hy), bind_of_ok hy, hf a w₁ hy]
  | error stop w₁ => rw [bind_of_error (hx.trans hy), bind_of_error hy]

/-- A walk that goes outside of a stream does so in its first part or behind it. -/
theorem WalkStep.bind_ne_outside (hx : ∀ w', x w ≠ .error .outside w')
    (hf : ∀ a w₁ w', f a w₁ ≠ .error .outside w') (w' : Workspace) :
    (x >>= f) w ≠ .error .outside w' := by
  cases h : x w with
  | ok a w₁ =>
    rw [bind_of_ok h]
    exact hf a w₁ w'
  | error stop w₁ =>
    rw [bind_of_error h]
    intro heq
    obtain ⟨rfl, rfl⟩ := EStateM.Result.error.inj heq
    exact hx w₁ h

theorem ok_of_within_eq_ok {x : Expansion α} {a : α} (h : Expansion.within x w = .ok a w') :
    x w = .ok a w' := by
  rw [Expansion.within] at h
  split at h
  · next hx =>
    cases h
    exact hx
  · cases h

theorem WalkStep.pure_ne_outside (a : α) (w w' : Workspace) :
    (pure a : WalkStep α) w ≠ .error .outside w' := nofun

theorem within_ne_outside (x : Expansion α) (w w' : Workspace) :
    Expansion.within x w ≠ .error .outside w' := by
  intro h
  rw [Expansion.within] at h
  split at h <;> cases h

end TokenMacros
