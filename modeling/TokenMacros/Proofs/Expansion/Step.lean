import TokenMacros.Expansion.Basic

/-!
# Steps that succeed

What is known of the parts of an expansion step that ends with a value.
-/

namespace TokenMacros

namespace Expansion

variable {α β : Type} {w w' : Workspace}

theorem bind_eq_ok {x : Expansion α} {f : α → Expansion β} {b : β} :
    (x >>= f) w = .ok b w' ↔ ∃ a w₁, x w = .ok a w₁ ∧ f a w₁ = .ok b w' := by
  show EStateM.bind x f w = _ ↔ _
  unfold EStateM.bind
  cases x w with
  | ok a w₁ =>
    constructor
    · intro h
      exact ⟨a, w₁, rfl, h⟩
    · rintro ⟨_, _, ⟨⟩, h⟩
      exact h
  | error e w₁ => simp

theorem pure_eq_ok {a b : α} : (pure a : Expansion α) w = .ok b w' ↔ a = b ∧ w = w' := by
  show EStateM.Result.ok a w = _ ↔ _
  simp

theorem ofExcept_eq_ok {x : Except Fault α} {a : α} :
    ofExcept x w = .ok a w' ↔ x = .ok a ∧ w = w' := by
  cases x with
  | ok b =>
    show (pure b : Expansion α) w = _ ↔ _
    simp [pure_eq_ok]
  | error e =>
    show EStateM.Result.error e w = _ ↔ _
    simp

theorem fail_ne_ok {cause : Cause} {position : Position} {a : α} :
    fail cause position w ≠ .ok a w' := by
  show EStateM.Result.error _ w ≠ _
  simp

theorem bind_of_ok {x : Expansion α} {f : α → Expansion β} {a : α} {w₁ : Workspace}
    (h : x w = .ok a w₁) : (x >>= f) w = f a w₁ := by
  show EStateM.bind x f w = _
  rw [EStateM.bind, h]

theorem bind_of_error {x : Expansion α} {f : α → Expansion β} {e : Fault} {w₁ : Workspace}
    (h : x w = .error e w₁) : (x >>= f) w = .error e w₁ := by
  show EStateM.bind x f w = _
  rw [EStateM.bind, h]

/-- Steps that agree where they start, and then wherever the first part ends, agree. -/
theorem bind_congr {x y : Expansion α} {f g : α → Expansion β} (hx : x w = y w)
    (hf : ∀ a w', y w = .ok a w' → f a w' = g a w') : (x >>= f) w = (y >>= g) w := by
  cases hy : y w with
  | ok a w' =>
    rw [bind_of_ok (hx.trans hy), bind_of_ok hy]
    exact hf a w' hy
  | error e w' => rw [bind_of_error (hx.trans hy), bind_of_error hy]

theorem environment_bind (f : Environment → Expansion α) (w : Workspace) :
    (environment >>= f) w = f w.env w := rfl

theorem between_eq_ok {before after : Environment → Environment} {step : Expansion α} {a : α} :
    between before after step w = .ok a w' ↔
      ∃ w₁, step { w with env := before w.env } = .ok a w₁ ∧
        w' = { w₁ with env := after w₁.env } := by
  unfold between
  cases step { w with env := before w.env } with
  | ok b w₁ =>
    constructor
    · rintro ⟨⟩
      exact ⟨w₁, rfl, rfl⟩
    · rintro ⟨_, ⟨⟩, rfl⟩
      rfl
  | error e w₁ => simp

/-! ## Evaluating -/

/-- Does the step end with a value that passes the test? -/
def Passes (step : Expansion α) (w : Workspace) (test : α → Workspace → Bool) : Prop :=
  (match step w with
    | .ok a w' => test a w'
    | .error _ _ => false) = true

instance (step : Expansion α) (w : Workspace) (test : α → Workspace → Bool) :
    Decidable (step.Passes w test) :=
  inferInstanceAs (Decidable (_ = true))

theorem exists_ok_of_passes {step : Expansion α} {test : α → Workspace → Bool}
    (h : step.Passes w test) : ∃ a w', step w = .ok a w' ∧ test a w' = true := by
  unfold Passes at h
  split at h
  · next a w' hstep => exact ⟨a, w', hstep, h⟩
  · cases h

end Expansion

end TokenMacros
