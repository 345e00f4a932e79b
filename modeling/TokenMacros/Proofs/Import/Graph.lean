import Mathlib.Data.Set.Finite.Basic
import Mathlib.Logic.Relation
import TokenMacros.Proofs.Import.Flattening

/-!
# The graph of modules

An import succeeds exactly if the modules that it reaches are sound and none of them reaches
itself again. The imports within each other are of different modules of the store, so that
the bound on their number is never met.

    (∃ w', i.run parameters w = .ok () w') ↔ isModulePath parameters ∧
      every module that modulePathText parameters reaches is sound and in no cycle
                                                           (Importer.run_ok_iff)
-/

namespace TokenMacros

namespace Importer

/-- The module imports another one at its top. -/
def Imports (i : Importer) (module imported : String) : Prop :=
  ∃ top body, i.Holds module top body ∧ ∃ d ∈ top, d.IsImport ∧ d.module = imported

/-- The module is there, nothing but imports is invoked at its top, and its declarations can be
read and are not too many. -/
def Sound (i : Importer) (module : String) : Prop :=
  ∃ top body own, i.Holds module top body ∧ (∀ d ∈ top, d.IsImport) ∧
    DeclarationScan i.operator [] body own ∧ own.length ≤ i.limit

/-- The module is reached from another one by imports, if only by none. -/
abbrev Reaches (i : Importer) : String → String → Prop := Relation.ReflTransGen i.Imports

variable {i : Importer} {module other : String} {top : List UnitInvocation} {body : List Token}
  {ds : List Declaration} {w w' : Workspace}

/-! ## Flattened modules -/

theorem FlattensAll.forall_mem : ∀ {top ds}, i.FlattensAll top ds →
    ∀ d ∈ top, d.IsImport ∧ ∃ ds', i.Flattens d.module ds'
  | [], _, _ => by simp
  | _ :: _, _, .cons himport hd htop =>
    List.forall_mem_cons.2 ⟨⟨himport, _, hd⟩, htop.forall_mem⟩

theorem Flattens.sound (h : i.Flattens module ds) : i.Sound module := by
  obtain ⟨hholds, htop, hscan, hlimit⟩ := h
  exact ⟨_, _, _, hholds, fun d hd => (htop.forall_mem d hd).1, hscan, hlimit⟩

theorem Flattens.exists_of_imports (h : i.Flattens module ds) (himports : i.Imports module other) :
    ∃ ds', i.Flattens other ds' := by
  obtain ⟨hholds, htop, -, -⟩ := h
  obtain ⟨top', body', hholds', d, hd, -, rfl⟩ := himports
  obtain ⟨rfl, -⟩ := hholds.unique hholds'
  exact (htop.forall_mem d hd).2

theorem Flattens.exists_of_reaches (h : i.Flattens module ds) (hreaches : i.Reaches module other) :
    ∃ ds', i.Flattens other ds' := by
  induction hreaches with
  | refl => exact ⟨ds, h⟩
  | tail _ himports ih =>
    obtain ⟨ds', h'⟩ := ih
    exact h'.exists_of_imports himports

mutual

/-- The chains of imports from a flattened module end. -/
theorem Flattens.acc {module : String} {ds : List Declaration} :
    i.Flattens module ds → Acc (Function.swap i.Imports) module
  | .module hholds htop _ _ => by
    refine .intro _ fun other himports => ?_
    obtain ⟨top', body', hholds', d, hd, -, rfl⟩ := himports
    obtain ⟨rfl, -⟩ := hholds.unique hholds'
    exact htop.acc d hd

theorem FlattensAll.acc {top : List UnitInvocation} {ds : List Declaration} :
    i.FlattensAll top ds → ∀ d ∈ top, Acc (Function.swap i.Imports) d.module
  | .nil => by simp
  | .cons _ hd htop => List.forall_mem_cons.2 ⟨hd.acc, htop.acc⟩

end

theorem not_cycle_of_acc (h : Acc (Function.swap i.Imports) module) :
    ¬ Relation.TransGen i.Imports module module := by
  induction h with
  | intro module _ ih =>
    intro hcycle
    -- the first import of the cycle leads to a module of the same cycle
    obtain ⟨other, himports, hreaches⟩ := Relation.TransGen.head'_iff.1 hcycle
    exact ih other himports (.tail' hreaches himports)

/-! ## Sound graphs without cycles -/

theorem exists_flattensAll (h : ∀ d ∈ top, d.IsImport ∧ ∃ ds, i.Flattens d.module ds) :
    ∃ ds, i.FlattensAll top ds := by
  induction top with
  | nil => exact ⟨[], .nil⟩
  | cons d top ih =>
    rw [List.forall_mem_cons] at h
    obtain ⟨⟨himport, ds, hd⟩, hrest⟩ := h
    obtain ⟨rest, htop⟩ := ih hrest
    exact ⟨ds ++ rest, .cons himport hd htop⟩

theorem Sound.exists_flattens (h : i.Sound module)
    (hnext : ∀ other, i.Imports module other → ∃ ds, i.Flattens other ds) :
    ∃ ds, i.Flattens module ds := by
  obtain ⟨top, body, own, hholds, himports, hscan, hlimit⟩ := h
  obtain ⟨imported, htop⟩ := exists_flattensAll fun d hd =>
    ⟨himports d hd, hnext d.module ⟨top, body, hholds, d, hd, himports d hd, rfl⟩⟩
  exact ⟨imported ++ own, .module hholds htop hscan hlimit⟩

/-! ## Finite stores -/

section listed

variable {modules : Table String} (hstore : i.store = .listed modules)

include hstore

theorem mem_names_of_source {source : String} (h : i.store.source module = .ok source) :
    module ∈ modules.names := by
  by_contra hnot
  rw [hstore] at h
  simp only [Import.ModuleStore.source, Table.find?_eq_none_iff.2 hnot] at h
  cases h

theorem Sound.mem_names (h : i.Sound module) : module ∈ modules.names := by
  obtain ⟨_, _, _, ⟨source, _, _, hsource, -⟩, -⟩ := h
  exact mem_names_of_source hstore hsource

/-- There are finitely many modules, so chains of imports end unless there is a cycle. -/
theorem exists_flattens_of_sound (hsound : ∀ other, i.Reaches module other → i.Sound other)
    (hcycle : ∀ other, i.Reaches module other → ¬ Relation.TransGen i.Imports other other) :
    ∃ ds, i.Flattens module ds := by
  have hfinite : Finite {other // i.Reaches module other} :=
    ((List.finite_toSet modules.names).subset fun other h =>
      (hsound other h).mem_names hstore).to_subtype
  let below : {other // i.Reaches module other} → {other // i.Reaches module other} → Prop :=
    fun a b => Relation.TransGen i.Imports b.1 a.1
  have htrans : IsTrans _ below := ⟨fun _ _ _ hab hbc => hbc.trans hab⟩
  have hirrefl : Std.Irrefl below := ⟨fun a h => hcycle a.1 a.2 h⟩
  have hwf : WellFounded below := Finite.wellFounded_of_trans_of_irrefl below
  suffices h : ∀ a : {other // i.Reaches module other}, ∃ ds, i.Flattens a.1 ds from
    h ⟨module, .refl⟩
  intro a
  induction a using hwf.induction with
  | _ a ih =>
    exact (hsound a.1 a.2).exists_flattens fun other himports =>
      ih ⟨other, a.2.tail himports⟩ (.single himports)

/-! ## Enough fuel -/

omit hstore

/-- The imports under way are of different modules of the store, and what is left of the fuel
suffices for the others. -/
structure UnderWay (i : Importer) (importing : List String) (fuel : Nat) : Prop where
  nodup : importing.Nodup
  stored : ∀ module ∈ importing, ∃ source, i.store.source module = .ok source
  enough : i.store.size + 2 ≤ fuel + importing.length

theorem underWay_nil {fuel : Nat} (h : i.store.size + 2 ≤ fuel) : i.UnderWay [] fuel :=
  ⟨List.nodup_nil, by simp, h⟩

theorem UnderWay.enter {importing : List String} {fuel : Nat} {source : String}
    (h : i.UnderWay importing (fuel + 1)) (hmem : module ∉ importing)
    (hsource : i.store.source module = .ok source) : i.UnderWay (module :: importing) fuel := by
  refine ⟨List.nodup_cons.2 ⟨hmem, h.nodup⟩,
    List.forall_mem_cons.2 ⟨⟨source, hsource⟩, h.stored⟩, ?_⟩
  have henough := h.enough
  rw [List.length_cons]
  omega

include hstore in
theorem UnderWay.exists_succ {importing : List String} {fuel : Nat}
    (h : i.UnderWay importing fuel) : ∃ fuel', fuel = fuel' + 1 := by
  have hsubset : importing ⊆ modules.names := fun module hmem =>
    have ⟨_, hsource⟩ := h.stored module hmem
    mem_names_of_source hstore hsource
  have hlen := (List.subperm_of_subset h.nodup hsubset).length_le
  have hsize : i.store.size = modules.names.length := by
    rw [hstore, Table.names, List.length_map]
    rfl
  have henough := h.enough
  exact ⟨fuel - 1, by omega⟩

mutual

/-- A flattened module can be imported where it reaches none of the imports under way. -/
theorem Flattens.importWithin_eq (hstore : i.store = .listed modules) {module : String}
    {ds : List Declaration} : i.Flattens module ds → ∀ (fuel : Nat) (parameters : List Token)
    (w : Workspace), isModulePath parameters = true → modulePathText parameters = module →
    i.UnderWay w.env.importing fuel → (∀ m ∈ w.env.importing, ¬ i.Reaches module m) →
    i.importWithin fuel parameters w = .ok () (w.declare ds)
  | @Flattens.module _ _ top body _ own hholds htop hscan hlimit, fuel, parameters, w, hpath,
      hmodule, hway, hfree => by
    subst hmodule
    obtain ⟨fuel, rfl⟩ := hway.exists_succ hstore
    have ⟨source, _, _, hsource, _⟩ := hholds
    have hmem : modulePathText parameters ∉ w.env.importing := fun hmem => hfree _ hmem .refl
    have himports : ∀ d ∈ top, i.Imports (modulePathText parameters) d.module := fun d hd =>
      ⟨top, body, hholds, d, hd, (htop.forall_mem d hd).1, rfl⟩
    have hacyclic := not_cycle_of_acc (Flattens.module hholds htop hscan hlimit).acc
    rw [importWithin_succ, importOnce_eq_ok_iff]
    refine ⟨hpath, hmem, _, load_eq_ok_iff.2 ⟨top, body, own, _, hholds,
      fun d hd => (htop.forall_mem d hd).1.1,
      htop.forM_eq hstore fuel _ (hway.enter hmem hsource) ?_, hscan, hlimit, rfl⟩, ?_⟩
    · intro d hd
      refine List.forall_mem_cons.2 ⟨?_, ?_⟩
      · exact fun hreaches => hacyclic (.head' (himports d hd) hreaches)
      · exact fun m hm hreaches => hfree m hm (.head (himports d hd) hreaches)
    · rw [Workspace.declare_declare]
      rfl

theorem FlattensAll.forM_eq (hstore : i.store = .listed modules) {top : List UnitInvocation}
    {ds : List Declaration} : i.FlattensAll top ds → ∀ (fuel : Nat) (w : Workspace),
    i.UnderWay w.env.importing fuel →
    (∀ d ∈ top, ∀ m ∈ w.env.importing, ¬ i.Reaches d.module m) →
    forM top (fun d => i.importWithin fuel d.parameters) w = .ok () (w.declare ds)
  | .nil, _, _, _, _ => rfl
  | @FlattensAll.cons _ _ _ ds _ himport hd htop, fuel, w, hway, hfree => by
    rw [List.forall_mem_cons] at hfree
    rw [← Workspace.declare_declare]
    exact Expansion.bind_eq_ok.2 ⟨(), w.declare ds,
      hd.importWithin_eq hstore fuel _ w himport.2 rfl hway hfree.1,
      htop.forM_eq hstore fuel (w.declare ds) hway hfree.2⟩

end

end listed

/-! ## Termination -/

section congr

variable {importing : List String} {next next' : List Token → Expansion Unit}
  (hnext : ∀ parameters v, v.env.importing = importing → next parameters v = next' parameters v)
  (hdefines : ∀ parameters, (next' parameters).OnlyDefines)

include hnext hdefines

theorem runInvocations_congr {operator : String} (fuel : Nat) (ts : List Token)
    (hw : w.env.importing = importing) :
    runInvocations operator (importStep? next) fuel ts w =
      runInvocations operator (importStep? next') fuel ts w := by
  induction fuel generalizing ts w with
  | zero => rfl
  | succ fuel ih =>
    rw [runInvocations, runInvocations]
    cases UnitInvocation.read operator ts with
    | none => rfl
    | some found =>
      obtain ⟨invocation, rest⟩ := found
      by_cases hname : invocation.name.text = "import"
      · simp only [importStep?, if_pos hname]
        refine Expansion.bind_congr (Expansion.bind_congr (hnext _ w hw) fun _ _ _ => rfl) ?_
        intro changed w₁ hchanged
        obtain ⟨_, w₂, hparameters, hpure⟩ := Expansion.bind_eq_ok.1 hchanged
        obtain ⟨-, rfl⟩ := Expansion.pure_eq_ok.1 hpure
        have hw₂ : w₂.env.importing = importing := by
          have hextends := (hdefines invocation.parameters).extends w
          rw [Expansion.final, hparameters] at hextends
          exact hextends.importing.trans hw
        exact Expansion.bind_congr (ih _ hw₂) fun _ _ _ => rfl
      · simp only [importStep?, if_neg hname]

theorem load_congr (hw : w.env.importing = importing) (module : String) (position : Position) :
    i.load next module position w = i.load next' module position w := by
  unfold load
  cases i.store.source module with
  | error fault => rfl
  | ok source =>
    refine Expansion.bind_congr rfl fun ts w₁ hts => ?_
    obtain ⟨-, rfl⟩ := Expansion.ofExcept_eq_ok.1 hts
    refine Expansion.bind_congr ?_ fun _ _ _ => rfl
    exact Expansion.bind_congr (runInvocations_congr hnext hdefines _ _ hw) fun _ _ _ => rfl

end congr

/-- The recursion is unfolded no more often than there may be imports under way: what it would do
then, `bottom`, does not matter. -/
theorem iterate_importOnce_eq {modules : Table String} (hstore : i.store = .listed modules)
    (bottom : List Token → Expansion Unit) {unfoldings fuel : Nat} (parameters : List Token)
    (hunfoldings : i.UnderWay w.env.importing unfoldings)
    (hfuel : i.UnderWay w.env.importing fuel) :
    i.importOnce^[unfoldings] bottom parameters w = i.importWithin fuel parameters w := by
  induction unfoldings generalizing fuel parameters w with
  | zero =>
    obtain ⟨_, hzero⟩ := hunfoldings.exists_succ hstore
    cases hzero
  | succ unfoldings ih =>
    obtain ⟨fuel, rfl⟩ := hfuel.exists_succ hstore
    rw [Function.iterate_succ_apply', importWithin_succ]
    by_cases hpath : isModulePath parameters = true
    · simp only [importOnce, if_pos hpath, Expansion.environment_bind]
      by_cases hmem : modulePathText parameters ∈ w.env.importing
      · simp only [if_pos (List.contains_iff_mem.2 hmem)]
      · have hload : i.load (i.importOnce^[unfoldings] bottom) (modulePathText parameters)
              (firstPosition parameters)
              { w with env := w.env.enterModule (modulePathText parameters) } =
            i.load (i.importWithin fuel) (modulePathText parameters) (firstPosition parameters)
              { w with env := w.env.enterModule (modulePathText parameters) } := by
          cases hsource : i.store.source (modulePathText parameters) with
          | error fault => simp only [load, hsource]
          | ok source =>
            refine load_congr ?_ (onlyDefines_importWithin i fuel) rfl _ _
            intro us v hv
            exact ih us (hv ▸ hunfoldings.enter hmem hsource) (hv ▸ hfuel.enter hmem hsource)
        simp only [if_neg (fun h => hmem (List.contains_iff_mem.1 h)), Expansion.between]
        rw [hload]
    · simp only [importOnce, if_neg hpath]

/-! ## Imports from a finite store -/

/-- Where no import is under way, an import terminates, and it succeeds exactly if the modules that
it reaches are sound and none of them reaches itself again. -/
theorem run_ok_iff {modules : Table String} (hstore : i.store = .listed modules)
    (himporting : w.env.importing = []) (parameters : List Token) :
    (∀ bottom unfoldings, modules.size + 2 ≤ unfoldings →
      i.importOnce^[unfoldings] bottom parameters w = i.run parameters w) ∧
    ((∃ w', i.run parameters w = .ok () w') ↔ isModulePath parameters = true ∧
      (∀ module, i.Reaches (modulePathText parameters) module → i.Sound module) ∧
      ∀ module, i.Reaches (modulePathText parameters) module →
        ¬ Relation.TransGen i.Imports module module) := by
  have hway : ∀ fuel, modules.size + 2 ≤ fuel → i.UnderWay w.env.importing fuel := by
    intro fuel hfuel
    rw [himporting]
    exact underWay_nil (hstore ▸ hfuel)
  have hsize : modules.size + 2 ≤ i.store.size + 2 := hstore ▸ Nat.le_refl _
  refine ⟨fun bottom unfoldings hle =>
    iterate_importOnce_eq hstore bottom parameters (hway _ hle) (hway _ hsize), ?_, ?_⟩
  · rintro ⟨w', h⟩
    obtain ⟨hpath, ds, hflat, -⟩ := importWithin_flattens h
    refine ⟨hpath, fun module hreaches => ?_, fun module hreaches => ?_⟩
    · obtain ⟨_, hmodule⟩ := hflat.exists_of_reaches hreaches
      exact hmodule.sound
    · obtain ⟨_, hmodule⟩ := hflat.exists_of_reaches hreaches
      exact not_cycle_of_acc hmodule.acc
  · rintro ⟨hpath, hsound, hcycle⟩
    obtain ⟨ds, hflat⟩ := exists_flattens_of_sound hstore hsound hcycle
    refine ⟨w.declare ds, hflat.importWithin_eq hstore _ _ w hpath rfl (hway _ hsize) ?_⟩
    simp [himporting]

/-- In the diamond `d` is imported twice, and there is no cycle. -/
theorem run_ok_iff_diamond : (∃ w', diamond.run [⟨.name, "a", {}⟩] default = .ok () w') ∧
    (∀ module, diamond.Reaches "a" module → diamond.Sound module) ∧
    ∀ module, diamond.Reaches "a" module → ¬ Relation.TransGen diamond.Imports module module := by
  obtain ⟨w', hrun, -⟩ := exists_run_diamond
  have h := ((run_ok_iff rfl rfl [⟨.name, "a", {}⟩]).2.1 ⟨w', hrun⟩).2
  exact ⟨⟨w', hrun⟩, h⟩

end Importer

end TokenMacros
