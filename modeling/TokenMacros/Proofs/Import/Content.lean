import TokenMacros.Expansion.Import
import TokenMacros.Proofs.Expansion.Balance
import TokenMacros.Proofs.Table

/-!
# What counts of a module

Of a module count the invocations at its top and the declarations that a scan of the
tokens behind them meets. Both are read off the tokens alone (`TopInvocations`,
`DeclarationScan`), and they are all that an import takes from a module:

    (∃ r, scanDeclarations operator limit ts w = .ok r w') ↔ ∃ own,
      DeclarationScan operator [] ts own ∧ own.length ≤ limit ∧ w' = w.declare own
                                                           (exists_scanDeclarations_iff)
    (∃ r, runUnitTop operator (importStep? next) ts w = .ok r w' ∧ r.getD ts = us) ↔
      the invocations at the top of ts are imports, next succeeds on them one after the
      other, and us is ts without them                     (exists_runUnitTop_iff)

`Importer.importOnce` is one import, with the imports within it left open.
-/

namespace TokenMacros

/-! ## Declaring -/

/-- What a declaration defines. -/
def Declaration.entry (d : Declaration) : String × Macro := (d.name, .rules ⟨d.name, d.rules⟩)

/-- The environment with declarations made in the innermost scope, one after the other. -/
def Environment.declare (e : Environment) (ds : List Declaration) : Environment :=
  { e with current := e.current.merge ⟨ds.map Declaration.entry⟩ }

namespace Workspace

/-- The workspace with declarations made in the innermost scope, one after the other. -/
def declare (w : Workspace) (ds : List Declaration) : Workspace :=
  { w with env := w.env.declare ds }

theorem declare_declare (w : Workspace) (ds ds' : List Declaration) :
    (w.declare ds).declare ds' = w.declare (ds ++ ds') := by
  simp only [declare, Environment.declare, Table.merge, List.map_append, List.foldl_append]

theorem declare_declare_self (w : Workspace) (ds : List Declaration) :
    (w.declare ds).declare ds = w.declare ds := by
  simp only [declare, Environment.declare, Table.merge_merge_self]

end Workspace

/-! ## The declarations of a stream -/

/-- The declarations that a scan of `rest` meets, which stands behind `before`, the nearest token
first. A declaration that was met is taken out, and the scan goes on one token before it. -/
inductive DeclarationScan (operator : String) : List Token → List Token → List Declaration → Prop
  | done {before : List Token} : DeclarationScan operator before [] []
  | pass {before ts : List Token} {t : Token} {ds : List Declaration} :
      Declaration.read operator (t :: ts) = .ok none →
      DeclarationScan operator (t :: before) ts ds → DeclarationScan operator before (t :: ts) ds
  | declared {before ts rest : List Token} {t : Token} {d : Declaration}
      {ds : List Declaration} :
      Declaration.read operator (t :: ts) = .ok (some (d, rest)) →
      DeclarationScan operator before.tail (before.head?.toList ++ rest) ds →
      DeclarationScan operator before (t :: ts) (d :: ds)

variable {operator : String} {ts us before rest behind : List Token} {w w' : Workspace}
  {d : Declaration} {ds ds' own : List Declaration} {limit : Nat}

theorem DeclarationScan.unique (h : DeclarationScan operator before rest ds)
    (h' : DeclarationScan operator before rest ds') : ds = ds' := by
  induction h generalizing ds' with
  | done =>
    cases h'
    rfl
  | pass hread _ ih =>
    cases h' with
    | pass _ hscan => exact ih hscan
    | declared hread' _ =>
      rw [hread] at hread'
      cases hread'
  | declared hread _ ih =>
    cases h' with
    | pass hread' _ =>
      rw [hread] at hread'
      cases hread'
    | declared hread' hscan =>
      rw [hread] at hread'
      cases hread'
      rw [ih hscan]

theorem declareHead_of_read_some (h : Declaration.read operator ts = .ok (some (d, rest)))
    (w : Workspace) : declareHead operator ts w =
      .ok (some ⟨ts.length - rest.length, []⟩) (w.declare [d]) := by
  show EStateM.bind (Expansion.ofExcept (Declaration.read operator ts)) _ w = _
  rw [h]
  rfl

/-- The splice of a declaration leaves what stood before and behind it. -/
theorem pending_splice_of_read (h : Declaration.read operator ts = .ok (some (d, rest)))
    (before : List Token) :
    (HeadChange.splice ⟨ts.length - rest.length, []⟩ before ts).pending =
      before.head?.toList ++ rest := by
  simp only [HeadChange.splice, Splice.pending, List.append_nil,
    (leftOf_of_declaration_read h).take_drop.2.1]

/-- A run of the scan for declarations makes one splice for each declaration it meets. -/
theorem declarationScan_of_scanRun {splices : List Splice} {out : List Token}
    (h : ScanRun (fun _ us => declareHead operator us) before rest w splices out w') :
    ∃ ds, DeclarationScan operator before rest ds ∧ ds.length = splices.length ∧
      w' = w.declare ds := by
  induction h with
  | done => exact ⟨[], .done, rfl, rfl⟩
  | pass hattempt _ ih =>
    rcases declareHead_eq_ok hattempt with ⟨hread, -, rfl⟩ | ⟨_, _, -, hsome, -⟩
    · obtain ⟨ds, hscan, hlen, rfl⟩ := ih
      exact ⟨ds, .pass hread hscan, hlen, rfl⟩
    · cases hsome
  | splice hattempt _ _ ih =>
    rcases declareHead_eq_ok hattempt with ⟨-, hnone, -⟩ | ⟨d, rest, hread, hsome, rfl⟩
    · cases hnone
    · cases hsome
      obtain ⟨ds, hscan, hlen, rfl⟩ := ih
      rw [pending_splice_of_read hread] at hscan
      exact ⟨d :: ds, .declared hread hscan, congrArg Nat.succ hlen, rfl⟩

theorem DeclarationScan.exists_scanRun (h : DeclarationScan operator before rest ds)
    (w : Workspace) : ∃ splices out, splices.length = ds.length ∧
      ScanRun (fun _ us => declareHead operator us) before rest w splices out (w.declare ds) := by
  induction h generalizing w with
  | done => exact ⟨[], _, rfl, .done⟩
  | pass hread _ ih =>
    obtain ⟨splices, out, hlen, hrun⟩ := ih w
    exact ⟨splices, out, hlen, .pass (declareHead_of_read_none hread w) hrun⟩
  | @declared before ts rest t d ds hread _ ih =>
    obtain ⟨splices, out, hlen, hrun⟩ := ih (w.declare [d])
    rw [← pending_splice_of_read hread before] at hrun
    exact ⟨_ :: splices, out, congrArg Nat.succ hlen,
      .splice (declareHead_of_read_some hread w) .nil hrun⟩

/-- A scan for declarations succeeds exactly if all that it meets can be read and are not too
many, and then it declares them. -/
theorem exists_scanDeclarations_iff :
    (∃ r, scanDeclarations operator limit ts w = .ok r w') ↔
      ∃ own, DeclarationScan operator [] ts own ∧ own.length ≤ limit ∧ w' = w.declare own := by
  constructor
  · rintro ⟨r, h⟩
    obtain ⟨splices, hrun, hlen⟩ := exists_scan_iff.1 ⟨r, h, rfl⟩
    obtain ⟨own, hscan, hown, rfl⟩ := declarationScan_of_scanRun hrun
    exact ⟨own, hscan, hown ▸ hlen, rfl⟩
  · rintro ⟨own, hscan, hlen, rfl⟩
    obtain ⟨splices, out, hsplices, hrun⟩ := hscan.exists_scanRun w
    obtain ⟨r, h, -⟩ := exists_scan_iff.2 ⟨splices, hrun, hsplices ▸ hlen⟩
    exact ⟨r, h⟩

/-! ## The invocations at the top of a unit -/

/-- The invocations at the head of a stream, one behind the other, and the tokens behind them. -/
inductive TopInvocations (operator : String) :
    List Token → List UnitInvocation → List Token → Prop
  | done {ts : List Token} : UnitInvocation.read operator ts = none →
      TopInvocations operator ts [] ts
  | more {ts rest behind : List Token} {invocation : UnitInvocation}
      {top : List UnitInvocation} :
      UnitInvocation.read operator ts = some (invocation, rest) →
      TopInvocations operator rest top behind →
      TopInvocations operator ts (invocation :: top) behind

variable {top top' : List UnitInvocation} {invocation : UnitInvocation}
  {next : List Token → Expansion Unit} {r : Option (List Token)}

theorem topInvocations_of_read_none (hread : UnitInvocation.read operator ts = none) :
    TopInvocations operator ts top rest ↔ top = [] ∧ rest = ts := by
  constructor
  · intro h
    cases h with
    | done _ => exact ⟨rfl, rfl⟩
    | more hread' _ =>
      rw [hread] at hread'
      cases hread'
  · rintro ⟨rfl, rfl⟩
    exact .done hread

theorem topInvocations_of_read_some
    (hread : UnitInvocation.read operator ts = some (invocation, us)) :
    TopInvocations operator ts top rest ↔
      ∃ more, top = invocation :: more ∧ TopInvocations operator us more rest := by
  constructor
  · intro h
    cases h with
    | done hread' =>
      rw [hread] at hread'
      cases hread'
    | more hread' hmore =>
      rw [hread] at hread'
      cases hread'
      exact ⟨_, rfl, hmore⟩
  · rintro ⟨more, rfl, hmore⟩
    exact .more hread hmore

theorem TopInvocations.unique (h : TopInvocations operator ts top rest)
    (h' : TopInvocations operator ts top' behind) : top = top' ∧ rest = behind := by
  induction h generalizing top' with
  | done hread =>
    obtain ⟨rfl, rfl⟩ := (topInvocations_of_read_none hread).1 h'
    exact ⟨rfl, rfl⟩
  | more hread _ ih =>
    obtain ⟨more, rfl, hmore⟩ := (topInvocations_of_read_some hread).1 h'
    obtain ⟨rfl, rfl⟩ := ih hmore
    exact ⟨rfl, rfl⟩

/-- Does the invocation import a module that its parameters name? -/
def UnitInvocation.IsImport (d : UnitInvocation) : Prop :=
  d.name.text = "import" ∧ isModulePath d.parameters = true

/-- The module that the parameters name. -/
def UnitInvocation.module (d : UnitInvocation) : String := modulePathText d.parameters

/-- What runs at the top of a module: `next` on the parameters of each import. -/
def importStep? (next : List Token → Expansion Unit) (name : String) : Option UnitStep :=
  if name = "import" then
    some fun parameters _ => do
      next parameters
      return none
  else none

theorem exists_runInvocations_of_read_none {find? : String → Option UnitStep} {fuel : Nat}
    (hread : UnitInvocation.read operator ts = none) :
    (∃ r, runInvocations operator find? fuel ts w = .ok r w' ∧ r.getD ts = us) ↔
      ∃ top, TopInvocations operator ts top us ∧ (∀ d ∈ top, d.name.text = "import") ∧
        forM top (fun d => next d.parameters) w = .ok () w' := by
  rw [runInvocations_of_read_none hread]
  simp only [topInvocations_of_read_none hread]
  constructor
  · rintro ⟨_, ⟨⟩, rfl⟩
    exact ⟨[], ⟨rfl, rfl⟩, by simp, rfl⟩
  · rintro ⟨_, ⟨rfl, rfl⟩, -, ⟨⟩⟩
    exact ⟨none, rfl, rfl⟩

/-- Imports at the head of a stream run one after the other, and are taken out. -/
theorem exists_runInvocations_iff {fuel : Nat} (hfuel : ts.length ≤ fuel) :
    (∃ r, runInvocations operator (importStep? next) fuel ts w = .ok r w' ∧ r.getD ts = us) ↔
      ∃ top, TopInvocations operator ts top us ∧ (∀ d ∈ top, d.name.text = "import") ∧
        forM top (fun d => next d.parameters) w = .ok () w' := by
  induction fuel generalizing ts w with
  | zero =>
    have hnil : ts = [] := List.length_eq_zero_iff.1 (Nat.le_zero.1 hfuel)
    subst hnil
    exact exists_runInvocations_of_read_none rfl
  | succ fuel ih =>
    cases hread : UnitInvocation.read operator ts with
    | none => exact exists_runInvocations_of_read_none hread
    | some found =>
      obtain ⟨invocation, rest⟩ := found
      have hlt := length_lt_of_unitInvocation_read hread
      have hrest : rest.length ≤ fuel := by omega
      rw [runInvocations]
      simp only [hread, importStep?, topInvocations_of_read_some hread]
      by_cases hname : invocation.name.text = "import"
      · simp only [if_pos hname, Expansion.bind_eq_ok, Expansion.pure_eq_ok]
        constructor
        · rintro ⟨_, ⟨_, _, ⟨_, w₁, hnext, rfl, rfl⟩, more, _, hmore, rfl, rfl⟩, rfl⟩
          obtain ⟨top, htop, hnames, hforM⟩ := (ih hrest).1 ⟨more, hmore, rfl⟩
          exact ⟨_, ⟨top, rfl, htop⟩, List.forall_mem_cons.2 ⟨hname, hnames⟩,
            Expansion.bind_eq_ok.2 ⟨(), w₁, hnext, hforM⟩⟩
        · rintro ⟨_, ⟨top, rfl, htop⟩, hnames, hforM⟩
          rw [List.forall_mem_cons] at hnames
          obtain ⟨_, w₁, hnext, hforM⟩ := Expansion.bind_eq_ok.1 hforM
          obtain ⟨more, hmore, hus⟩ := (ih hrest).2 ⟨top, htop, hnames.2, hforM⟩
          exact ⟨some (more.getD rest),
            ⟨none, w₁, ⟨(), w₁, hnext, rfl, rfl⟩, more, w', hmore, rfl, rfl⟩, hus⟩
      · simp only [if_neg hname]
        constructor
        · rintro ⟨_, h, -⟩
          exact absurd h Expansion.fail_ne_ok
        · rintro ⟨_, ⟨top, rfl, -⟩, hnames, -⟩
          exact absurd (List.forall_mem_cons.1 hnames).1 hname

/-- The top of a module succeeds exactly if nothing is invoked but imports and each of them does,
and then the module is left without them. -/
theorem exists_runUnitTop_iff :
    (∃ r, runUnitTop operator (importStep? next) ts w = .ok r w' ∧ r.getD ts = us) ↔
      ∃ top rest, TopInvocations operator (splitDocstring ts).2 top rest ∧
        (∀ d ∈ top, d.name.text = "import") ∧
        forM top (fun d => next d.parameters) w = .ok () w' ∧
        us = (splitDocstring ts).1 ++ rest := by
  have hparts := splitDocstring_append ts
  unfold runUnitTop
  generalize splitDocstring ts = parts at hparts ⊢
  obtain ⟨docstring, body⟩ := parts
  simp only [Expansion.bind_eq_ok, Expansion.pure_eq_ok]
  constructor
  · rintro ⟨_, ⟨r, _, hr, rfl, rfl⟩, rfl⟩
    obtain ⟨top, htop, hnames, hforM⟩ :=
      (exists_runInvocations_iff (Nat.le_refl _)).1 ⟨r, hr, rfl⟩
    refine ⟨top, r.getD body, htop, hnames, hforM, ?_⟩
    cases r with
    | none => exact hparts.symm
    | some rest => rfl
  · rintro ⟨top, rest, htop, hnames, hforM, rfl⟩
    obtain ⟨r, hr, rfl⟩ := (exists_runInvocations_iff (Nat.le_refl _)).2 ⟨top, htop, hnames, hforM⟩
    refine ⟨r.map (docstring ++ ·), ⟨r, w', hr, rfl, rfl⟩, ?_⟩
    cases r with
    | none => exact hparts.symm
    | some rest => rfl

/-! ## One import -/

namespace Importer

/-- The module is in the store; `top` are the invocations at its top, and `body` is the module
without them. -/
def Holds (i : Importer) (module : String) (top : List UnitInvocation) (body : List Token) :
    Prop :=
  ∃ source ts rest, i.store.source module = .ok source ∧ tokenize source = .ok ts ∧
    TopInvocations i.operator (splitDocstring ts).2 top rest ∧ body = (splitDocstring ts).1 ++ rest

variable {i : Importer} {module : String} {body body' : List Token} {position : Position}
  {parameters : List Token}

theorem Holds.unique (h : i.Holds module top body) (h' : i.Holds module top' body') :
    top = top' ∧ body = body' := by
  obtain ⟨source, ts, rest, hsource, hts, htop, rfl⟩ := h
  obtain ⟨source', ts', rest', hsource', hts', htop', rfl⟩ := h'
  rw [hsource] at hsource'
  cases hsource'
  rw [hts] at hts'
  cases hts'
  obtain ⟨rfl, rfl⟩ := htop.unique htop'
  exact ⟨rfl, rfl⟩

/-- Brings in the declarations of a module; `next` runs the imports at its top. -/
def load (i : Importer) (next : List Token → Expansion Unit) (module : String)
    (position : Position) : Expansion Unit :=
  match i.store.source module with
  | .error fault => .fail (.notImported module fault) position
  | .ok source => do
    let ts ← Expansion.ofExcept (tokenize source)
    let rest := (← runUnitTop i.operator (importStep? next) ts).getD ts
    discard <| scanDeclarations i.operator i.limit rest

/-- One import; `next` runs the imports within. -/
def importOnce (i : Importer) (next : List Token → Expansion Unit) (parameters : List Token) :
    Expansion Unit := do
  let position := firstPosition parameters
  if isModulePath parameters then
    let module := modulePathText parameters
    if (← Expansion.environment).importing.contains module then
      .fail (.notImported module .cycle) position
    else
      .between (·.enterModule module) (·.leaveModule) (i.load next module position)
  else .fail (.notImported (print parameters) .badPath) position

theorem importWithin_succ (i : Importer) (fuel : Nat) :
    i.importWithin (fuel + 1) = i.importOnce (i.importWithin fuel) := rfl

theorem load_eq_ok_iff : i.load next module position w = .ok () w' ↔
    ∃ top body own w₁, i.Holds module top body ∧ (∀ d ∈ top, d.name.text = "import") ∧
      forM top (fun d => next d.parameters) w = .ok () w₁ ∧
      DeclarationScan i.operator [] body own ∧ own.length ≤ i.limit ∧ w' = w₁.declare own := by
  unfold load
  constructor
  · intro h
    cases hsource : i.store.source module with
    | error fault =>
      simp only [hsource] at h
      exact absurd h Expansion.fail_ne_ok
    | ok source =>
      simp only [hsource] at h
      obtain ⟨ts, w₀, htokens, h⟩ := Expansion.bind_eq_ok.1 h
      obtain ⟨hts, rfl⟩ := Expansion.ofExcept_eq_ok.1 htokens
      obtain ⟨r, w₁, hr, h⟩ := Expansion.bind_eq_ok.1 h
      obtain ⟨found, w₂, hfound, h⟩ := Expansion.bind_eq_ok.1 h
      obtain ⟨-, rfl⟩ := Expansion.pure_eq_ok.1 h
      obtain ⟨top, rest, htop, hnames, hforM, hbody⟩ := exists_runUnitTop_iff.1 ⟨r, hr, rfl⟩
      obtain ⟨own, hscan, hlimit, rfl⟩ := exists_scanDeclarations_iff.1 ⟨found, hfound⟩
      exact ⟨top, r.getD ts, own, w₁, ⟨source, ts, rest, hsource, hts, htop, hbody⟩, hnames, hforM,
        hscan, hlimit, rfl⟩
  · rintro ⟨top, body, own, w₁, ⟨source, ts, rest, hsource, hts, htop, rfl⟩, hnames, hforM, hscan,
      hlimit, rfl⟩
    obtain ⟨r, hr, hbody⟩ := exists_runUnitTop_iff.2 ⟨top, rest, htop, hnames, hforM, rfl⟩
    obtain ⟨found, hfound⟩ := exists_scanDeclarations_iff.2 ⟨own, hscan, hlimit, rfl⟩
    rw [← hbody] at hfound
    simp only [hsource]
    exact Expansion.bind_eq_ok.2 ⟨ts, w, Expansion.ofExcept_eq_ok.2 ⟨hts, rfl⟩,
      Expansion.bind_eq_ok.2 ⟨r, w₁, hr, Expansion.bind_eq_ok.2 ⟨found, _, hfound, rfl⟩⟩⟩

theorem importOnce_eq_ok_iff : i.importOnce next parameters w = .ok () w' ↔
    isModulePath parameters = true ∧ modulePathText parameters ∉ w.env.importing ∧
      ∃ w₁, i.load next (modulePathText parameters) (firstPosition parameters)
          { w with env := w.env.enterModule (modulePathText parameters) } = .ok () w₁ ∧
        w' = { w₁ with env := w₁.env.leaveModule } := by
  by_cases hpath : isModulePath parameters = true
  · simp only [importOnce, if_pos hpath, Expansion.environment_bind]
    by_cases hmem : modulePathText parameters ∈ w.env.importing
    · rw [if_pos (List.contains_iff_mem.2 hmem)]
      exact ⟨fun h => absurd h Expansion.fail_ne_ok, fun h => absurd hmem h.2.1⟩
    · rw [if_neg (fun h => hmem (List.contains_iff_mem.1 h)), Expansion.between_eq_ok]
      exact ⟨fun h => ⟨hpath, hmem, h⟩, fun h => h.2.2⟩
  · simp only [importOnce, if_neg hpath]
    exact ⟨fun h => absurd h Expansion.fail_ne_ok, fun h => absurd h.1 hpath⟩

end Importer

end TokenMacros
