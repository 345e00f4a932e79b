import TokenMacros.Proofs.Expansion.Balance

/-!
# Limits

A limit decides whether an expansion ends with the fault of that limit, and nothing else.
A step outlasts another if it ends as the other does, with the same workspace, wherever
the other does not run into a limit. Steps built alike from steps that outlast each other
outlast each other, and so a higher limit outlasts a lower one:

    n ≤ m → (scan attempt m ts).Outlasts (scan attempt n ts)           (outlasts_scan)
    n ≤ m → (settle step m m ts).Outlasts (settle step n n ts)         (outlasts_settle)
    e.Raised e' → (e'.expand ts).Outlasts (e.expand ts)        (Expander.Raised.expand)
-/

namespace TokenMacros

namespace Expansion

variable {α β : Type} {x y : Expansion α} {f g : α → Expansion β} {w : Workspace}

/-- The step ends with the fault of a limit on splices or rounds. -/
def HitsLimit (step : Expansion α) (w : Workspace) : Prop :=
  ∃ limit position w', step w = .error ⟨.tooManySplices limit, position⟩ w'

/-- `y` ends as `x` does, in the same workspace, unless `x` runs into a limit. -/
def Outlasts (y x : Expansion α) : Prop := ∀ w, ¬ x.HitsLimit w → y w = x w

theorem not_hitsLimit_of_ok {a : α} {w' : Workspace} (h : x w = .ok a w') : ¬ x.HitsLimit w := by
  rintro ⟨limit, position, w₁, herror⟩
  rw [h] at herror
  cases herror

theorem Outlasts.refl (x : Expansion α) : x.Outlasts x := fun _ _ => rfl

theorem Outlasts.bind (hx : y.Outlasts x) (hf : ∀ a, (g a).Outlasts (f a)) :
    (y >>= g).Outlasts (x >>= f) := by
  intro w hlimit
  -- a limit that either part runs into, the whole runs into
  have hfirst : y w = x w := by
    refine hx w fun ⟨limit, position, w', herror⟩ => hlimit ?_
    exact ⟨limit, position, w', bind_of_error herror⟩
  refine bind_congr hfirst fun a w₁ hok => hf a w₁ fun ⟨limit, position, w', herror⟩ => hlimit ?_
  exact ⟨limit, position, w', (bind_of_ok hok).trans herror⟩

theorem Outlasts.discard (h : y.Outlasts x) :
    (Functor.discard y : Expansion Unit).Outlasts (Functor.discard x) :=
  h.bind fun _ => .refl _

theorem Outlasts.between (before after : Environment → Environment) (h : y.Outlasts x) :
    (between before after y).Outlasts (between before after x) := by
  intro w hlimit
  have hinner : y { w with env := before w.env } = x { w with env := before w.env } := by
    refine h _ fun ⟨limit, position, w', herror⟩ => hlimit ?_
    exact ⟨limit, position, { w' with env := after w'.env }, by rw [Expansion.between, herror]⟩
  rw [Expansion.between, Expansion.between, hinner]

/-- Nothing is known of what outlasts the fault of a limit. -/
theorem outlasts_tooManySplices (y : Expansion α) (limit : Nat) (position : Position) :
    y.Outlasts (fail (.tooManySplices limit) position) :=
  fun w hlimit => absurd ⟨limit, position, w, rfl⟩ hlimit

end Expansion

open Expansion (Outlasts)

variable {n m : Nat}

/-! ## Scans -/

section scan

variable {attempt : Attempt}

/-- With no splices left the lower limit is hit, so what the other scan does then does not
matter. -/
theorem outlasts_resume (n m : Nat) {left left' : Nat} (hleft : left ≤ left') (s : Splice) :
    (resume attempt m left' s).Outlasts (resume attempt n left s) := by
  induction left generalizing left' s with
  | zero => exact Expansion.outlasts_tooManySplices _ n s.position
  | succ left ih =>
    obtain ⟨left', rfl⟩ := Nat.exists_eq_add_of_le' (Nat.one_le_of_lt hleft)
    unfold resume
    refine (Outlasts.refl _).bind fun _ => (Outlasts.refl _).bind fun found => ?_
    cases found with
    | none => exact .refl _
    | some next => exact ih (Nat.le_of_succ_le_succ hleft) next

theorem outlasts_scan (h : n ≤ m) (ts : List Token) :
    (scan attempt m ts).Outlasts (scan attempt n ts) := by
  refine (Outlasts.refl _).bind fun found => ?_
  cases found with
  | none => exact .refl _
  | some s => exact (outlasts_resume n m h s).bind fun _ => .refl _

/-- A scan ends with a value exactly if it has a run that keeps the limit. -/
theorem scan_eq_ok_iff {limit : Nat} {ts : List Token} {found : Option (List Token)}
    {w w' : Workspace} : scan attempt limit ts w = .ok found w' ↔
      ∃ splices out, ScanRun attempt [] ts w splices out w' ∧ splices.length ≤ limit ∧
        found = if splices = [] then none else some out := by
  cases found with
  | none =>
    rw [scan_eq_none_iff]
    constructor
    · exact fun hrun => ⟨[], ts, hrun, Nat.zero_le limit, rfl⟩
    · rintro ⟨splices, out, hrun, -, hfound⟩
      split at hfound
      · next hnil =>
        subst hnil
        cases hrun.out_eq
        exact hrun
      · cases hfound
  | some out =>
    rw [scan_eq_some_iff]
    constructor
    · rintro ⟨splices, hrun, hne, hlen⟩
      exact ⟨splices, out, hrun, hlen, (if_neg hne).symm⟩
    · rintro ⟨splices, out', hrun, hlen, hfound⟩
      split at hfound
      · cases hfound
      · next hne =>
        cases hfound
        exact ⟨splices, hrun, hne, hlen⟩

end scan

/-! ## Rounds -/

theorem outlasts_settleFrom (step : Transform) (n m : Nat) {left left' : Nat}
    (hleft : left ≤ left') (ts : List Token) :
    (settle step m left' ts).Outlasts (settle step n left ts) := by
  induction left generalizing left' ts with
  | zero =>
    unfold settle
    refine (Outlasts.refl _).bind fun found => ?_
    split
    · exact .refl _
    · split
      · exact .refl _
      · exact Expansion.outlasts_tooManySplices _ n _
  | succ left ih =>
    obtain ⟨left', rfl⟩ := Nat.exists_eq_add_of_le' (Nat.one_le_of_lt hleft)
    unfold settle
    refine (Outlasts.refl _).bind fun found => ?_
    split
    · exact .refl _
    · next next =>
      split
      · exact .refl _
      · exact (ih (Nat.le_of_succ_le_succ hleft) next).bind fun _ => .refl _

theorem outlasts_settle (step : Transform) (h : n ≤ m) (ts : List Token) :
    (settle step m m ts).Outlasts (settle step n n ts) :=
  outlasts_settleFrom step n m h ts

theorem outlasts_andThen {first first' second second' : Transform} {ts : List Token}
    (hfirst : (first' ts).Outlasts (first ts)) (hsecond : ∀ us, (second' us).Outlasts (second us)) :
    (andThen first' second' ts).Outlasts (andThen first second ts) := by
  refine hfirst.bind fun found => ?_
  cases found with
  | none => exact hsecond ts
  | some out => exact (hsecond out).bind fun _ => .refl _

/-! ## Units and imports -/

/-- A unit macro outlasts another, whatever it is given. -/
def UnitStep.Outlasts (step' step : UnitStep) : Prop :=
  ∀ parameters rest, (step' parameters rest).Outlasts (step parameters rest)

section units

variable {operator : String} {find? find?' : String → Option UnitStep}

theorem outlasts_runInvocations
    (hfind : ∀ name, Option.Rel UnitStep.Outlasts (find?' name) (find? name)) (fuel : Nat)
    (ts : List Token) : (runInvocations operator find?' fuel ts).Outlasts
      (runInvocations operator find? fuel ts) := by
  induction fuel generalizing ts with
  | zero => exact .refl _
  | succ fuel ih =>
    unfold runInvocations
    split
    · exact .refl _
    · next invocation rest _ =>
      have hname := hfind invocation.name.text
      revert hname
      generalize find?' invocation.name.text = step', find? invocation.name.text = step
      intro hname
      cases hname with
      | none => exact .refl _
      | some hstep => exact (hstep _ _).bind fun _ => (ih _).bind fun _ => .refl _

theorem outlasts_runUnitTop
    (hfind : ∀ name, Option.Rel UnitStep.Outlasts (find?' name) (find? name)) (ts : List Token) :
    (runUnitTop operator find?' ts).Outlasts (runUnitTop operator find? ts) := by
  unfold runUnitTop
  generalize splitDocstring ts = parts
  exact (outlasts_runInvocations hfind _ _).bind fun _ => .refl _

end units

theorem outlasts_importWithin (store : Import.ModuleStore) (operator : String) (h : n ≤ m)
    (fuel : Nat) (parameters : List Token) :
    ((Importer.mk store operator m).importWithin fuel parameters).Outlasts
      ((Importer.mk store operator n).importWithin fuel parameters) := by
  induction fuel generalizing parameters with
  | zero => exact .refl _
  | succ fuel ih =>
    unfold Importer.importWithin
    split
    · refine (Outlasts.refl _).bind fun env => ?_
      split
      · exact .refl _
      · refine Outlasts.between _ _ ?_
        -- both importers load the same source
        dsimp only
        generalize store.source (modulePathText parameters) = found
        cases found with
        | error fault => exact .refl _
        | ok source =>
          refine (Outlasts.refl _).bind fun ts => (outlasts_runUnitTop ?_ ts).bind fun rest => ?_
          · intro name
            split
            · exact .some fun us _ => (ih us).bind fun _ => .refl _
            · exact .none
          · exact (outlasts_scan h _).discard
    · exact .refl _

/-- The same macro, or one that imports with a limit that is no lower. -/
inductive UnitMacro.Raised : UnitMacro → UnitMacro → Prop
  | refl (m : UnitMacro) : m.Raised m
  | imports {n m : Nat} (store : Import.ModuleStore) (operator : String) : n ≤ m →
      UnitMacro.Raised (.imports ⟨store, operator, n⟩) (.imports ⟨store, operator, m⟩)

theorem UnitMacro.Raised.step {u u' : UnitMacro} (h : u.Raised u') :
    UnitStep.Outlasts u'.step u.step := by
  intro parameters rest
  cases h with
  | refl => exact .refl _
  | imports store operator hle =>
    exact (outlasts_importWithin store operator hle _ parameters).bind fun _ => .refl _

/-! ## Expanders -/

namespace Expander

/-- The same expander, but for limits that are no lower. -/
structure Raised (e e' : Expander) : Prop where
  operator : e'.settings.operator = e.settings.operator
  spliceLimit : e.settings.spliceLimit ≤ e'.settings.spliceLimit
  unitMacros : ∀ name, Option.Rel UnitMacro.Raised (e.unitMacros.find? name)
    (e'.unitMacros.find? name)

variable {e e' : Expander}

/-- The limit of the scan may be raised alone. -/
theorem raised_of_spliceLimit (e : Expander) (h : e.settings.spliceLimit ≤ m) :
    e.Raised { e with settings := { e.settings with spliceLimit := m } } := by
  refine ⟨rfl, h, fun name => ?_⟩
  dsimp only
  cases e.unitMacros.find? name with
  | none => exact .none
  | some u => exact .some (.refl u)

theorem Raised.withUnitMacro (h : e.Raised e') {u u' : UnitMacro} (hu : u.Raised u')
    (name : String) : (e.withUnitMacro name u).Raised (e'.withUnitMacro name u') := by
  refine ⟨h.operator, h.spliceLimit, fun name' => ?_⟩
  simp only [Expander.withUnitMacro, Table.find?_insert]
  split
  · exact .some hu
  · exact h.unitMacros name'

/-- The limit of an expander is that of the imports it is given. -/
theorem Raised.withImports (h : e.Raised e') (store : Import.ModuleStore) :
    (e.withImports store).Raised (e'.withImports store) := by
  unfold Expander.withImports
  rw [h.operator]
  exact h.withUnitMacro (.imports store _ h.spliceLimit) "import"

/-- Both stages of an expander are tried alike and differ in their limits alone. -/
theorem Raised.expand (h : e.Raised e') (ts : List Token) :
    (e'.expand ts).Outlasts (e.expand ts) := by
  have hattempt : e'.attempt = e.attempt := by rw [attempt, heads, h.operator]; rfl
  unfold Expander.expand
  rw [stages_run, stages_run, h.operator, hattempt]
  refine (Outlasts.refl _).bind fun _ => Outlasts.bind ?_ fun _ => .refl _
  refine outlasts_andThen (outlasts_runUnitTop (fun name => ?_) ts) fun us =>
    outlasts_andThen (outlasts_scan h.spliceLimit us) fun _ => .refl _
  have hname := h.unitMacros name
  unfold unitStep?
  revert hname
  generalize e.unitMacros.find? name = u, e'.unitMacros.find? name = u'
  intro hname
  cases hname with
  | none => exact .none
  | some hu => exact .some hu.step

theorem Raised.expandScoped (h : e.Raised e') (ts : List Token) :
    (e'.expandScoped ts).Outlasts (e.expandScoped ts) :=
  (h.expand ts).between _ _

theorem Raised.expandText (h : e.Raised e') (source : String) :
    (e'.expandText source).Outlasts (e.expandText source) :=
  (Outlasts.refl _).bind fun ts => h.expandScoped ts

end Expander

/-! ## Raising limits -/

/-- With a higher limit, a scan, the rounds of a macro and an expander end as they do with a lower
one unless that is hit; and a scan ends with a value exactly if it can run to its end, without a
limit, in so many splices. -/
theorem outlasts_of_raised_limits (h : n ≤ m) :
    (∀ attempt ts, (scan attempt m ts).Outlasts (scan attempt n ts)) ∧
    (∀ attempt ts w found w', scan attempt n ts w = .ok found w' ↔
      ∃ splices out, ScanRun attempt [] ts w splices out w' ∧ splices.length ≤ n ∧
        found = if splices = [] then none else some out) ∧
    (∀ step ts, (settle step m m ts).Outlasts (settle step n n ts)) ∧
    (∀ store operator parameters, ((Importer.mk store operator m).run parameters).Outlasts
      ((Importer.mk store operator n).run parameters)) ∧
    ∀ e e' : Expander, e.Raised e' →
      (∀ ts, (e'.expand ts).Outlasts (e.expand ts)) ∧
      (∀ ts, (e'.expandScoped ts).Outlasts (e.expandScoped ts)) ∧
      ∀ source, (e'.expandText source).Outlasts (e.expandText source) :=
  ⟨fun _ => outlasts_scan h, fun _ _ _ _ _ => scan_eq_ok_iff, fun step => outlasts_settle step h,
    fun store operator => outlasts_importWithin store operator h _,
    fun _ _ hraised => ⟨hraised.expand, hraised.expandScoped, hraised.expandText⟩⟩

/-- An expander of so many splices that knows an empty module. -/
def limitedImporter (limit : Nat) : Expander :=
  Expander.withImports { settings := ⟨limit, "!"⟩ } (.listed (.ofList [("m", "")]))

theorem outlasts_importedCall : 1 ≤ 2 ∧ (limitedImporter 1).Raised (limitedImporter 2) ∧ ∃ w',
    (limitedImporter 1).expand importedCall boxMacros = .ok importedCallExpanded w' ∧
      (limitedImporter 2).expand importedCall boxMacros = .ok importedCallExpanded w' := by
  have hle : 1 ≤ 2 := by decide
  have hraised : (limitedImporter 1).Raised (limitedImporter 2) :=
    (Expander.raised_of_spliceLimit { settings := ⟨1, "!"⟩ } hle).withImports _
  obtain ⟨out, w', hexp, hout⟩ := Expansion.exists_ok_of_passes
    (show ((limitedImporter 1).expand importedCall).Passes boxMacros
      (fun out _ => decide (out = importedCallExpanded)) by decide +kernel)
  rw [decide_eq_true_eq] at hout
  subst hout
  have houtlasts := ((outlasts_of_raised_limits hle).2.2.2.2 _ _ hraised).1 importedCall boxMacros
  exact ⟨hle, hraised, w', hexp, (houtlasts (Expansion.not_hitsLimit_of_ok hexp)).trans hexp⟩

end TokenMacros
