import TokenMacros.Proofs.Expansion.Frame
import TokenMacros.Proofs.Import.Content

/-!
# An import flattens the modules

What an import defines depends on the store alone: `Flattens` tells it for a module from
what it tells of the modules that are imported at its top, depth first. A successful import
makes these definitions in the innermost scope, and does nothing else.

    i.run parameters w = .ok () w' → ∃ ds, i.Flattens (modulePathText parameters) ds ∧
      w' = w.declare ds ∧ i.run parameters w' = .ok () w'  (Importer.run_flattens)
-/

namespace TokenMacros

/-- Wherever just these imports are under way, the step makes the declarations. -/
def Expansion.Declares (step : Expansion Unit) (importing : List String)
    (ds : List Declaration) : Prop :=
  ∀ w : Workspace, w.env.importing = importing → step w = .ok () (w.declare ds)

namespace Importer

mutual

/-- The declarations that an import of a module makes, in order: those of the modules that it
imports at its top, then its own. -/
inductive Flattens (i : Importer) : String → List Declaration → Prop
  | module {module : String} {top : List UnitInvocation} {body : List Token}
      {imported own : List Declaration} :
      i.Holds module top body → FlattensAll i top imported →
      DeclarationScan i.operator [] body own → own.length ≤ i.limit →
      Flattens i module (imported ++ own)

/-- The declarations that imports make one after the other. -/
inductive FlattensAll (i : Importer) : List UnitInvocation → List Declaration → Prop
  | nil : FlattensAll i [] []
  | cons {d : UnitInvocation} {top : List UnitInvocation} {ds rest : List Declaration} :
      d.IsImport → Flattens i d.module ds → FlattensAll i top rest →
      FlattensAll i (d :: top) (ds ++ rest)

end

variable {i : Importer} {fuel : Nat} {parameters : List Token} {w w' : Workspace}

mutual

theorem Flattens.unique {module : String} {ds ds' : List Declaration} :
    i.Flattens module ds → i.Flattens module ds' → ds = ds'
  | .module hholds htop hscan _, .module hholds' htop' hscan' _ => by
    obtain ⟨rfl, rfl⟩ := hholds.unique hholds'
    rw [htop.unique htop', hscan.unique hscan']

theorem FlattensAll.unique {top : List UnitInvocation} {ds ds' : List Declaration} :
    i.FlattensAll top ds → i.FlattensAll top ds' → ds = ds'
  | .nil, .nil => rfl
  | .cons _ hd htop, .cons _ hd' htop' => by rw [hd.unique hd', htop.unique htop']

end

/-! ## Successful imports -/

/-- Imports that succeed one after the other make their declarations one after the other. Each
finds the same imports under way, since a successful one declares and does nothing else. -/
theorem forM_flattens {next : List Token → Expansion Unit}
    (hnext : ∀ {parameters w w'}, next parameters w = .ok () w' →
      isModulePath parameters = true ∧ ∃ ds, i.Flattens (modulePathText parameters) ds ∧
        (next parameters).Declares w.env.importing ds)
    {top : List UnitInvocation} (hnames : ∀ d ∈ top, d.name.text = "import")
    (h : forM top (fun d => next d.parameters) w = .ok () w') :
    ∃ ds, i.FlattensAll top ds ∧
      Expansion.Declares (forM top fun d => next d.parameters) w.env.importing ds := by
  induction top generalizing w with
  | nil => exact ⟨[], .nil, fun v _ => rfl⟩
  | cons d top ih =>
    rw [List.forall_mem_cons] at hnames
    obtain ⟨_, w₁, hd, htop⟩ := Expansion.bind_eq_ok.1 h
    obtain ⟨hpath, ds, hds, hdeclares⟩ := hnext hd
    have hw₁ : w₁ = w.declare ds := by
      rw [hdeclares w rfl] at hd
      cases hd
      rfl
    subst hw₁
    obtain ⟨rest, hrest, hdeclaresRest⟩ := ih hnames.2 htop
    refine ⟨ds ++ rest, .cons ⟨hnames.1, hpath⟩ hds hrest, fun v hv => ?_⟩
    rw [← Workspace.declare_declare]
    exact Expansion.bind_eq_ok.2 ⟨(), v.declare ds, hdeclares v hv, hdeclaresRest _ hv⟩

/-- An import that succeeds makes the declarations of its module, and would have made them in
every workspace where the same imports are under way. -/
theorem importWithin_flattens (h : i.importWithin fuel parameters w = .ok () w') :
    isModulePath parameters = true ∧ ∃ ds, i.Flattens (modulePathText parameters) ds ∧
      (i.importWithin fuel parameters).Declares w.env.importing ds := by
  induction fuel generalizing parameters w w' with
  | zero => exact absurd h Expansion.fail_ne_ok
  | succ fuel ih =>
    rw [importWithin_succ, importOnce_eq_ok_iff] at h
    obtain ⟨hpath, hmem, w₁, hload, rfl⟩ := h
    obtain ⟨top, body, own, w₂, hholds, hnames, htop, hscan, hlimit, rfl⟩ := load_eq_ok_iff.1 hload
    obtain ⟨imported, hflat, hdeclares⟩ := forM_flattens ih hnames htop
    refine ⟨hpath, imported ++ own, .module hholds hflat hscan hlimit, fun v hv => ?_⟩
    rw [importWithin_succ, importOnce_eq_ok_iff]
    refine ⟨hpath, hv ▸ hmem, _, load_eq_ok_iff.2 ⟨top, body, own, _, hholds, hnames,
      hdeclares _ (congrArg (List.cons _) hv), hscan, hlimit, rfl⟩, ?_⟩
    rw [Workspace.declare_declare]
    rfl

/-- The unit goes on with the tokens behind an import that succeeded. -/
theorem runInvocations_import (h : i.run parameters w = .ok () w') {operator : String}
    {find? : String → Option UnitStep} {ts rest : List Token} {name : Token}
    (hread : UnitInvocation.read operator ts = some (⟨name, parameters⟩, rest))
    (hname : find? name.text = some (UnitMacro.imports i).step) (fuel : Nat) :
    runInvocations operator find? (fuel + 1) ts w =
      (do return some ((← runInvocations operator find? fuel rest).getD rest)
        : Expansion _) w' := by
  have hstep : (UnitMacro.imports i).step parameters rest w = .ok none w' :=
    Expansion.bind_eq_ok.2 ⟨(), w', h, rfl⟩
  rw [runInvocations]
  simp only [hread, hname]
  show EStateM.bind ((UnitMacro.imports i).step parameters rest) _ w = _
  rw [EStateM.bind, hstep]
  rfl

/-- A successful import updates the innermost scope by the declarations of the module, flattened,
and changes nothing else; the unit behind it stays as it is. Once more, it changes nothing. -/
theorem run_flattens (h : i.run parameters w = .ok () w') :
    ∃ ds, i.Flattens (modulePathText parameters) ds ∧
      (∀ ds', i.Flattens (modulePathText parameters) ds' → ds' = ds) ∧
      w' = { w with env := { w.env with
        current := w.env.current.merge ⟨ds.map Declaration.entry⟩ } } ∧
      (∀ operator find? ts rest name fuel,
        UnitInvocation.read operator ts = some (⟨name, parameters⟩, rest) →
        find? name.text = some (UnitMacro.imports i).step →
        runInvocations operator find? (fuel + 1) ts w =
          (do return some ((← runInvocations operator find? fuel rest).getD rest)
            : Expansion _) w') ∧
      i.run parameters w' = .ok () w' := by
  obtain ⟨-, ds, hflat, hdeclares⟩ := importWithin_flattens h
  have hw' : w' = w.declare ds := by
    have heq := hdeclares w rfl
    rw [run] at h
    rw [h] at heq
    cases heq
    rfl
  subst hw'
  refine ⟨ds, hflat, fun ds' hds' => hds'.unique hflat, rfl, ?_, ?_⟩
  · intro operator find? ts rest name fuel hread hname
    exact runInvocations_import h hread hname fuel
  · have hagain := hdeclares (w.declare ds) rfl
    rwa [Workspace.declare_declare_self] at hagain

/-! ## A diamond -/

/-- Module `a` imports `b` and `c.x`, and both import `d`. -/
def diamond : Importer where
  store := .listed (.ofList
    [("a", "'doc'\n![import(b)]\n![import(c.x)]\nmacro_rules! own:\n    []: a\n"),
      ("b", "![import(d)]\nmacro_rules! m:\n    []: b\n"),
      ("c.x", "![import(d)]\nother\nmacro_rules! n:\n    [$t:tt]: c\n"),
      ("d", "macro_rules! m:\n    []: d\n")])
  operator := "!"
  limit := 10

theorem exists_run_diamond : ∃ w', diamond.run [⟨.name, "a", {}⟩] default = .ok () w' ∧
    w'.env.current.names = ["m", "n", "own"] := by
  obtain ⟨_, w', hrun, hnames⟩ := Expansion.exists_ok_of_passes
    (show (diamond.run [⟨.name, "a", {}⟩]).Passes default
      (fun _ w' => w'.env.current.names == ["m", "n", "own"]) by decide +kernel)
  exact ⟨w', hrun, beq_iff_eq.1 hnames⟩

theorem run_flattens_diamond : ∃ w', diamond.run [⟨.name, "a", {}⟩] default = .ok () w' ∧
    w'.env.current.names = ["m", "n", "own"] ∧
    diamond.run [⟨.name, "a", {}⟩] w' = .ok () w' ∧
    ∃ ds, diamond.Flattens "a" ds ∧ w' = (default : Workspace).declare ds := by
  obtain ⟨w', hrun, hnames⟩ := exists_run_diamond
  obtain ⟨ds, hflat, -, hw', -, hagain⟩ := run_flattens hrun
  exact ⟨w', hrun, hnames, hagain, ds, hflat, hw'⟩

end Importer

end TokenMacros
