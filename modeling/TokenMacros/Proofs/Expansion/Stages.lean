import TokenMacros.Expander
import TokenMacros.Proofs.Expansion.Scan

/-!
# The two stages of an expansion

An expansion that succeeds runs the unit macros, and then makes a run of the scan:

    e.expand ts w = .ok out w' ↔ ∃ splices, e.Expands ts w splices out w'
                                                           (Expander.expand_eq_ok_iff)
-/

namespace TokenMacros

theorem andThen_eq_ok {first second : Transform} {ts : List Token} {w w' : Workspace}
    {r : Option (List Token)} :
    andThen first second ts w = .ok r w' ↔ ∃ a w₁ b, first ts w = .ok a w₁ ∧
      second (a.getD ts) w₁ = .ok b w' ∧ r = a.elim b fun out => some (b.getD out) := by
  rw [andThen, Expansion.bind_eq_ok]
  constructor
  · rintro ⟨a, w₁, ha, h⟩
    cases a with
    | none => exact ⟨none, w₁, r, ha, h, rfl⟩
    | some out =>
      obtain ⟨b, w₂, hb, h⟩ := Expansion.bind_eq_ok.1 h
      obtain ⟨rfl, rfl⟩ := Expansion.pure_eq_ok.1 h
      exact ⟨some out, w₁, b, ha, hb, rfl⟩
  · rintro ⟨a, w₁, b, ha, hb, rfl⟩
    refine ⟨a, w₁, ha, ?_⟩
    cases a with
    | none => exact hb
    | some out => exact Expansion.bind_eq_ok.2 ⟨b, w', hb, rfl⟩

/-- Where no invocation stands, nothing is run. -/
theorem runInvocations_of_read_none {operator : String} {find? : String → Option UnitStep}
    {fuel : Nat} {ts : List Token} {w : Workspace}
    (hread : UnitInvocation.read operator ts = none) :
    runInvocations operator find? fuel ts w = .ok none w := by
  cases fuel with
  | zero => rfl
  | succ fuel =>
    rw [runInvocations, hread]
    rfl

theorem runUnitTop_of_read_none {operator : String} {find? : String → Option UnitStep}
    {ts : List Token} {w : Workspace}
    (hread : UnitInvocation.read operator (splitDocstring ts).2 = none) :
    runUnitTop operator find? ts w = .ok none w := by
  show (runInvocations operator find? _ (splitDocstring ts).2 >>= _) w = _
  rw [Expansion.bind_of_ok (runInvocations_of_read_none hread)]
  rfl

namespace Expander

/-- The macros that a unit may invoke at its top. -/
def unitStep? (e : Expander) (name : String) : Option UnitStep :=
  (e.unitMacros.find? name).map UnitMacro.step

/-- What the scan tries on the head of what is left of a stream. -/
def attempt (e : Expander) : Attempt := firstChange (Macro.runWithin (nestingLimit - 1)) e.heads

/-- A successful expansion: `splices` are those of its scan. -/
def Expands (e : Expander) (ts : List Token) (w : Workspace) (splices : List Splice)
    (out : List Token) (w' : Workspace) : Prop :=
  Balanced ts ∧ ∃ top w₁, runUnitTop e.settings.operator e.unitStep? ts w = .ok top w₁ ∧
    ScanRun e.attempt [] (top.getD ts) w₁ splices out w' ∧
    splices.length ≤ e.settings.spliceLimit

theorem stages_run (e : Expander) :
    e.stages.run = andThen (fun us => runUnitTop e.settings.operator e.unitStep? us)
      (fun us => andThen (fun vs => scan e.attempt e.settings.spliceLimit vs)
        (fun _ => pure none) us) := by
  funext ts
  show Macro.runWith (Macro.runWithin (nestingLimit - 1)) e.stages ts = _
  simp only [stages, Macro.runWith, Macro.runAll]
  rfl

theorem expand_eq_ok_iff {e : Expander} {ts out : List Token} {w w' : Workspace} :
    e.expand ts w = .ok out w' ↔ ∃ splices, e.Expands ts w splices out w' := by
  rw [expand, Expansion.bind_eq_ok, stages_run]
  simp only [Expansion.bind_eq_ok, Expansion.ofExcept_eq_ok, Expansion.pure_eq_ok, andThen_eq_ok]
  constructor
  · rintro ⟨_, _, ⟨hbalanced, rfl⟩, r, _, ⟨top, w₁, b, htop, ⟨found, w₂, c, hscan, ⟨rfl, rfl⟩, rfl⟩,
      rfl⟩, rfl, rfl⟩
    obtain ⟨splices, hrun, hlen⟩ := exists_scan_iff.1 ⟨found, hscan, rfl⟩
    refine ⟨splices, requireBalanced_eq_ok_iff.1 hbalanced, top, w₁, htop, ?_, hlen⟩
    cases top <;> cases found <;> exact hrun
  · rintro ⟨splices, hbalanced, top, w₁, htop, hrun, hlen⟩
    obtain ⟨found, hscan, rfl⟩ := exists_scan_iff.2 ⟨splices, hrun, hlen⟩
    refine ⟨(), w, ⟨requireBalanced_eq_ok_iff.2 hbalanced, rfl⟩, _, w',
      ⟨top, w₁, _, htop, ⟨found, w', none, hscan, ⟨rfl, rfl⟩, rfl⟩, rfl⟩, ?_, rfl⟩
    cases top <;> cases found <;> rfl

/-- Behind a top without invocations, an expansion fails as its scan does. -/
theorem expand_eq_error_of_scan {e : Expander} {ts : List Token} {w w' : Workspace} {fault : Fault}
    (hbalanced : Balanced ts)
    (htop : runUnitTop e.settings.operator e.unitStep? ts w = .ok none w)
    (hscan : scan e.attempt e.settings.spliceLimit ts w = .error fault w') :
    e.expand ts w = .error fault w' := by
  have hcheck : Expansion.ofExcept (requireBalanced ts) w = .ok () w :=
    Expansion.ofExcept_eq_ok.2 ⟨requireBalanced_eq_ok_iff.2 hbalanced, rfl⟩
  rw [expand, Expansion.bind_of_ok hcheck, stages_run]
  refine Expansion.bind_of_error ?_
  rw [andThen, Expansion.bind_of_ok htop]
  exact Expansion.bind_of_error hscan

end Expander

end TokenMacros
