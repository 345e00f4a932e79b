import TokenMacros.Expander

/-!
# What expansion leaves alone

Whether it ends with a value or with a fault, a step of expansion makes definitions
in the innermost scope, logs texts, and changes nothing else. How it ends does not
depend on what was logged before. `Expansion.OnlyDefines` says both of a step; every
kind of macro keeps to it if the macros that it applies do.

    ((e.expand ts).final w).env.Extends w.env
    ((e.expandScoped ts).final w).env = w.env
    e.expandUnits units w = units.map fun ts => (e.expandScoped ts).outcome w
                                                           (Expander.expand_frame)
-/

namespace TokenMacros

/-! ## Environments -/

namespace Environment

/-- `later` is `e` with definitions made in the innermost scope, one after the other. -/
structure Extends (later e : Environment) : Prop where
  outer : later.outer = e.outer
  shared : later.shared = e.shared
  importing : later.importing = e.importing
  current : ∃ definitions, later.current = e.current.merge ⟨definitions⟩

variable {e e₁ e₂ later : Environment} {module : String}

theorem Extends.refl (e : Environment) : e.Extends e := ⟨rfl, rfl, rfl, [], rfl⟩

theorem Extends.trans (h : later.Extends e₂) (h' : e₂.Extends e₁) : later.Extends e₁ := by
  obtain ⟨ds', hds'⟩ := h'.current
  obtain ⟨ds, hds⟩ := h.current
  refine ⟨h.outer.trans h'.outer, h.shared.trans h'.shared, h.importing.trans h'.importing,
    ds' ++ ds, ?_⟩
  rw [hds, hds']
  simp only [Table.merge, List.foldl_append]

theorem extends_define (e : Environment) (name : String) (m : Macro) :
    (e.define name m).Extends e :=
  ⟨rfl, rfl, rfl, [(name, m)], rfl⟩

theorem Extends.scopeCount_eq (h : later.Extends e) : later.scopeCount = e.scopeCount := by
  rw [scopeCount, h.outer, scopeCount]

/-- A name that was defined stays defined. -/
theorem Extends.contains (h : later.Extends e) {name : String}
    (hname : e.current.contains name = true) : later.current.contains name = true := by
  obtain ⟨definitions, hds⟩ := h.current
  rw [hds, Table.merge]
  clear hds
  generalize e.current = scope at hname
  induction definitions generalizing scope with
  | nil => exact hname
  | cons d ds ih =>
    refine ih (scope.insert d.1 d.2) ?_
    rw [Table.contains, Table.find?_insert]
    split
    · rfl
    · exact hname

/-- The mark of a module is off again. -/
theorem Extends.leaveModule (h : later.Extends (e.enterModule module)) :
    later.leaveModule.Extends e :=
  ⟨h.outer, h.shared, congrArg List.tail h.importing, h.current⟩

/-- With the scope that was opened, all definitions are gone. -/
theorem Extends.closeScope_eq (h : later.Extends e.openScope) : later.closeScope = e := by
  obtain ⟨current, outer, shared, importing⟩ := later
  obtain ⟨rfl, rfl, rfl, -⟩ := h
  rfl

end Environment

/-! ## Steps -/

namespace Expansion

variable {α β : Type} {w w' : Workspace}

/-- How a step ends: with a value or with a fault. -/
def outcome (step : Expansion α) (w : Workspace) : Except Fault α :=
  match step w with
  | .ok a _ => .ok a
  | .error e _ => .error e

/-- The workspace behind a step, whether it ends with a value or with a fault. -/
def final (step : Expansion α) (w : Workspace) : Workspace :=
  match step w with
  | .ok _ w' => w'
  | .error _ w' => w'

/-- The end of a step in a workspace. -/
def ending : Except Fault α → Workspace → EStateM.Result Fault Workspace α
  | .ok a, w => .ok a w
  | .error e, w => .error e w

/-- The step takes the environment alone into account; it makes definitions in the innermost scope
and adds to the log, and does nothing else. -/
def OnlyDefines (step : Expansion α) : Prop :=
  ∀ env, ∃ result later added, Environment.Extends later env ∧
    ∀ log, step ⟨env, log⟩ = ending result ⟨later, log ++ added⟩

theorem outcome_of_eq {step : Expansion α} {result : Except Fault α}
    (h : step w = ending result w') : step.outcome w = result := by
  rw [outcome, h]
  cases result <;> rfl

theorem final_of_eq {step : Expansion α} {result : Except Fault α}
    (h : step w = ending result w') : step.final w = w' := by
  rw [final, h]
  cases result <;> rfl

theorem outcome_between (before after : Environment → Environment) (step : Expansion α)
    (w : Workspace) : (between before after step).outcome w =
      step.outcome { w with env := before w.env } := by
  simp only [outcome, between]
  cases step { w with env := before w.env } <;> rfl

theorem final_between (before after : Environment → Environment) (step : Expansion α)
    (w : Workspace) : (between before after step).final w =
      { step.final { w with env := before w.env } with
        env := after (step.final { w with env := before w.env }).env } := by
  simp only [final, between]
  cases step { w with env := before w.env } <;> rfl

theorem OnlyDefines.extends {step : Expansion α} (h : step.OnlyDefines) (w : Workspace) :
    (step.final w).env.Extends w.env := by
  obtain ⟨result, later, added, hlater, heq⟩ := h w.env
  rw [final_of_eq (heq w.log)]
  exact hlater

/-! ### Parts of steps -/

theorem onlyDefines_of_result (result : Except Fault α) : OnlyDefines (ending result) :=
  fun env => ⟨result, env, [], .refl env, fun log => by rw [List.append_nil]⟩

theorem onlyDefines_pure (a : α) : (pure a : Expansion α).OnlyDefines :=
  onlyDefines_of_result (.ok a)

theorem onlyDefines_fail (cause : Cause) (position : Position) :
    (fail cause position : Expansion α).OnlyDefines :=
  onlyDefines_of_result (.error ⟨cause, position⟩)

theorem onlyDefines_ofExcept : ∀ x : Except Fault α, (ofExcept x).OnlyDefines
  | .ok a => onlyDefines_pure a
  | .error e => onlyDefines_of_result (.error e)

theorem onlyDefines_environment : environment.OnlyDefines :=
  fun env => ⟨.ok env, env, [], .refl env, fun log => by rw [List.append_nil]; rfl⟩

theorem onlyDefines_log (text : String) : (log text).OnlyDefines :=
  fun env => ⟨.ok (), env, [text], .refl env, fun _ => rfl⟩

theorem onlyDefines_define (name : String) (m : Macro) :
    (modifyEnvironment fun e => e.define name m).OnlyDefines :=
  fun env => ⟨.ok (), env.define name m, [], env.extends_define name m,
    fun log => by rw [List.append_nil]; rfl⟩

theorem OnlyDefines.bind {x : Expansion α} {f : α → Expansion β} (hx : x.OnlyDefines)
    (hf : ∀ a, (f a).OnlyDefines) : (x >>= f).OnlyDefines := by
  intro env
  obtain ⟨result, middle, added, hmiddle, hx⟩ := hx env
  cases result with
  | error e =>
    refine ⟨.error e, middle, added, hmiddle, fun log => ?_⟩
    show EStateM.bind x f ⟨env, log⟩ = _
    rw [EStateM.bind, hx log]
    rfl
  | ok a =>
    obtain ⟨result, later, added', hlater, hf⟩ := hf a middle
    refine ⟨result, later, added ++ added', hlater.trans hmiddle, fun log => ?_⟩
    show EStateM.bind x f ⟨env, log⟩ = _
    rw [EStateM.bind, hx log, ← List.append_assoc]
    exact hf (log ++ added)

theorem OnlyDefines.discard {x : Expansion α} (hx : x.OnlyDefines) :
    (Functor.discard x : Expansion Unit).OnlyDefines :=
  hx.bind fun _ => onlyDefines_pure ()

/-- Between the marks of a module a step may define what it will. -/
theorem OnlyDefines.betweenModule {step : Expansion α} (h : step.OnlyDefines) (module : String) :
    (between (·.enterModule module) (·.leaveModule) step).OnlyDefines := by
  intro env
  obtain ⟨result, later, added, hlater, heq⟩ := h (env.enterModule module)
  refine ⟨result, later.leaveModule, added, hlater.leaveModule, fun log => ?_⟩
  simp only [between]
  rw [heq log]
  cases result <;> rfl

/-- In a scope of its own a step leaves the environment as it was. -/
theorem OnlyDefines.betweenScopes {step : Expansion α} (h : step.OnlyDefines) (env : Environment) :
    ∃ result added, ∀ log, between Environment.openScope Environment.closeScope step ⟨env, log⟩ =
      ending result ⟨env, log ++ added⟩ := by
  obtain ⟨result, later, added, hlater, heq⟩ := h env.openScope
  refine ⟨result, added, fun log => ?_⟩
  simp only [between]
  rw [heq log]
  cases result <;> simp only [ending, hlater.closeScope_eq]

end Expansion

/-! ## Changing heads and scanning -/

section apply

variable {apply : Apply} (happly : ∀ m ts, (apply m ts).OnlyDefines)

include happly

theorem onlyDefines_invoke (name : Token) (argument : List Token) :
    (invoke apply name argument).OnlyDefines := by
  refine Expansion.onlyDefines_environment.bind fun env => ?_
  split
  · exact Expansion.onlyDefines_fail _ _
  · next m _ =>
    refine (happly m argument).bind fun found => ?_
    cases found with
    | some out => exact Expansion.onlyDefines_pure out
    | none => exact Expansion.onlyDefines_fail _ _

theorem onlyDefines_callHead (operator : String) (ts : List Token) :
    (callHead apply operator ts).OnlyDefines := by
  unfold callHead
  split
  · split
    · refine (Expansion.onlyDefines_ofExcept _).bind fun found => ?_
      split
      · exact Expansion.onlyDefines_pure _
      · exact (onlyDefines_invoke happly _ _).bind fun _ => Expansion.onlyDefines_pure _
    · exact Expansion.onlyDefines_pure _
  · exact Expansion.onlyDefines_pure _

theorem onlyDefines_decoratorHead (operator : String) (ts : List Token) :
    (decoratorHead apply operator ts).OnlyDefines := by
  refine (Expansion.onlyDefines_ofExcept _).bind fun found => ?_
  split
  · exact Expansion.onlyDefines_pure _
  · exact (onlyDefines_invoke happly _ _).bind fun _ => Expansion.onlyDefines_pure _

omit happly in
theorem onlyDefines_declareHead (operator : String) (ts : List Token) :
    (declareHead operator ts).OnlyDefines := by
  refine (Expansion.onlyDefines_ofExcept _).bind fun found => ?_
  split
  · exact Expansion.onlyDefines_pure _
  · next d rest =>
    exact (Expansion.onlyDefines_define d.name _).bind fun _ => Expansion.onlyDefines_pure _

theorem onlyDefines_changeHead (head : HeadMacro) (ts : List Token) :
    (head.changeHead apply ts).OnlyDefines := by
  cases head with
  | rules set => exact Expansion.onlyDefines_ofExcept _
  | declaration operator => exact onlyDefines_declareHead operator ts
  | decorator operator => exact onlyDefines_decoratorHead happly operator ts
  | call operator => exact onlyDefines_callHead happly operator ts

theorem onlyDefines_firstChange (heads : List HeadMacro) (lineStart : Bool) (ts : List Token) :
    (firstChange apply heads lineStart ts).OnlyDefines := by
  induction heads with
  | nil => exact Expansion.onlyDefines_pure none
  | cons head heads ih =>
    unfold firstChange
    split
    · exact ih
    · refine (onlyDefines_changeHead happly head ts).bind fun found => ?_
      cases found with
      | some change => exact Expansion.onlyDefines_pure _
      | none => exact ih

end apply

section scan

variable {attempt : Attempt} (hattempt : ∀ lineStart ts, (attempt lineStart ts).OnlyDefines)

include hattempt

theorem onlyDefines_findSplice (before rest : List Token) :
    (findSplice attempt before rest).OnlyDefines := by
  induction rest generalizing before with
  | nil => exact Expansion.onlyDefines_pure none
  | cons t ts ih =>
    refine (hattempt _ _).bind fun found => ?_
    cases found with
    | some head => exact Expansion.onlyDefines_pure _
    | none => exact ih (t :: before)

theorem onlyDefines_resume (limit left : Nat) (s : Splice) :
    (resume attempt limit left s).OnlyDefines := by
  induction left generalizing s with
  | zero => exact Expansion.onlyDefines_fail _ _
  | succ left ih =>
    refine (Expansion.onlyDefines_ofExcept _).bind fun _ => ?_
    refine (onlyDefines_findSplice hattempt _ _).bind fun found => ?_
    cases found with
    | none => exact Expansion.onlyDefines_pure _
    | some next => exact ih next

theorem onlyDefines_scan (limit : Nat) (ts : List Token) :
    (scan attempt limit ts).OnlyDefines := by
  refine (onlyDefines_findSplice hattempt [] ts).bind fun found => ?_
  cases found with
  | none => exact Expansion.onlyDefines_pure none
  | some s =>
    exact (onlyDefines_resume hattempt limit limit s).bind fun _ => Expansion.onlyDefines_pure _

end scan

/-! ## Units and imports -/

theorem onlyDefines_runInvocations {operator : String} {find? : String → Option UnitStep}
    (hstep : ∀ name step, find? name = some step → ∀ parameters rest,
      (step parameters rest).OnlyDefines) (fuel : Nat) (ts : List Token) :
    (runInvocations operator find? fuel ts).OnlyDefines := by
  induction fuel generalizing ts with
  | zero => exact Expansion.onlyDefines_pure none
  | succ fuel ih =>
    unfold runInvocations
    split
    · exact Expansion.onlyDefines_pure none
    · next invocation rest _ =>
      split
      · exact Expansion.onlyDefines_fail _ _
      · next step hfind =>
        refine (hstep _ step hfind _ _).bind fun changed => ?_
        exact (ih _).bind fun _ => Expansion.onlyDefines_pure _

theorem onlyDefines_runUnitTop {operator : String} {find? : String → Option UnitStep}
    (hstep : ∀ name step, find? name = some step → ∀ parameters rest,
      (step parameters rest).OnlyDefines) (ts : List Token) :
    (runUnitTop operator find? ts).OnlyDefines := by
  unfold runUnitTop
  generalize splitDocstring ts = parts
  exact (onlyDefines_runInvocations hstep _ _).bind fun _ => Expansion.onlyDefines_pure _

/-- The marks of the modules that are being imported come off again, whatever happens. -/
theorem onlyDefines_importWithin (i : Importer) (fuel : Nat) (parameters : List Token) :
    (i.importWithin fuel parameters).OnlyDefines := by
  induction fuel generalizing parameters with
  | zero => exact Expansion.onlyDefines_fail _ _
  | succ fuel ih =>
    unfold Importer.importWithin
    split
    · refine Expansion.onlyDefines_environment.bind fun env => ?_
      split
      · exact Expansion.onlyDefines_fail _ _
      · refine Expansion.OnlyDefines.betweenModule ?_ _
        split
        · exact Expansion.onlyDefines_fail _ _
        · refine (Expansion.onlyDefines_ofExcept _).bind fun ts => ?_
          refine (onlyDefines_runUnitTop ?_ ts).bind fun rest => ?_
          · rintro name step hfind us vs
            split at hfind
            · cases hfind
              exact (ih us).bind fun _ => Expansion.onlyDefines_pure none
            · cases hfind
          · exact (onlyDefines_scan (fun _ us => onlyDefines_declareHead _ us) _ _).discard
    · exact Expansion.onlyDefines_fail _ _

theorem onlyDefines_unitStep (m : UnitMacro) (parameters rest : List Token) :
    (m.step parameters rest).OnlyDefines := by
  cases m with
  | host m => exact Expansion.onlyDefines_pure (m.change parameters rest)
  | imports importer =>
    exact (onlyDefines_importWithin importer _ parameters).bind fun _ =>
      Expansion.onlyDefines_pure none

/-! ## Macros -/

theorem onlyDefines_settle {step : Transform} (hstep : ∀ ts, (step ts).OnlyDefines)
    (limit left : Nat) (ts : List Token) : (settle step limit left ts).OnlyDefines := by
  induction left generalizing ts with
  | zero =>
    unfold settle
    refine (hstep ts).bind fun found => ?_
    split
    · exact Expansion.onlyDefines_pure none
    · split
      · exact Expansion.onlyDefines_pure none
      · exact Expansion.onlyDefines_fail _ _
  | succ left ih =>
    unfold settle
    refine (hstep ts).bind fun found => ?_
    split
    · exact Expansion.onlyDefines_pure none
    · next next =>
      split
      · exact Expansion.onlyDefines_pure none
      · exact (ih next).bind fun _ => Expansion.onlyDefines_pure _

theorem onlyDefines_andThen {first second : Transform} (hfirst : ∀ ts, (first ts).OnlyDefines)
    (hsecond : ∀ ts, (second ts).OnlyDefines) (ts : List Token) :
    (andThen first second ts).OnlyDefines := by
  refine (hfirst ts).bind fun found => ?_
  cases found with
  | none => exact hsecond ts
  | some out => exact (hsecond out).bind fun _ => Expansion.onlyDefines_pure _

mutual

/-- A macro keeps to its scope if the macros that heads name do. -/
theorem Macro.onlyDefines_runWith {apply : Apply} (happly : ∀ m ts, (apply m ts).OnlyDefines) :
    ∀ (m : Macro) (ts : List Token), (m.runWith apply ts).OnlyDefines
  | .rules set, ts => by
    rw [Macro.runWith]
    exact Expansion.onlyDefines_ofExcept _
  | .stringify, ts => by
    rw [Macro.runWith]
    exact Expansion.onlyDefines_pure _
  | .debug, ts => by
    rw [Macro.runWith]
    exact (Expansion.onlyDefines_log _).bind fun _ => Expansion.onlyDefines_pure _
  | .fixpoint inner limit, ts => by
    rw [Macro.runWith]
    exact onlyDefines_settle (Macro.onlyDefines_runWith happly inner) limit limit ts
  | .chain macros, ts => by
    rw [Macro.runWith]
    exact Macro.onlyDefines_runAll happly macros ts
  | .heads macros limit, ts => by
    rw [Macro.runWith]
    exact onlyDefines_scan (onlyDefines_firstChange happly macros) limit ts
  | .unitTop operator macros, ts => by
    rw [Macro.runWith]
    refine onlyDefines_runUnitTop (fun name step hfind => ?_) ts
    obtain ⟨m, -, rfl⟩ := Option.map_eq_some_iff.1 hfind
    exact onlyDefines_unitStep m

theorem Macro.onlyDefines_runAll {apply : Apply} (happly : ∀ m ts, (apply m ts).OnlyDefines) :
    ∀ (macros : List Macro) (ts : List Token), (Macro.runAll apply macros ts).OnlyDefines
  | [], ts => by
    rw [Macro.runAll]
    exact Expansion.onlyDefines_pure none
  | m :: ms, ts => by
    rw [Macro.runAll]
    exact onlyDefines_andThen (Macro.onlyDefines_runWith happly m)
      (Macro.onlyDefines_runAll happly ms) ts

end

theorem Macro.onlyDefines_runWithin (nesting : Nat) (m : Macro) (ts : List Token) :
    (m.runWithin nesting ts).OnlyDefines := by
  induction nesting generalizing m ts with
  | zero =>
    exact Macro.onlyDefines_runWith
      (fun _ us => Expansion.onlyDefines_fail .tooDeep (firstPosition us)) m ts
  | succ nesting ih => exact Macro.onlyDefines_runWith ih m ts

/-! ## Expanders -/

namespace Expander

/-- Expands units one behind the other, each in a scope of its own. A fault ends its unit only. -/
def expandUnits (e : Expander) : List (List Token) → Workspace → List (Except Fault (List Token))
  | [], _ => []
  | ts :: units, w =>
    (e.expandScoped ts).outcome w :: e.expandUnits units ((e.expandScoped ts).final w)

variable (e : Expander) (ts : List Token)

theorem onlyDefines_expand : (e.expand ts).OnlyDefines :=
  (Expansion.onlyDefines_ofExcept _).bind fun _ =>
    (Macro.onlyDefines_runWithin nestingLimit e.stages ts).bind fun _ =>
      Expansion.onlyDefines_pure _

/-- A unit adds to the log and does nothing else, and it does not read the log. -/
theorem expandScoped_eq (env : Environment) : ∃ result added, ∀ log,
    e.expandScoped ts ⟨env, log⟩ = Expansion.ending result ⟨env, log ++ added⟩ :=
  (e.onlyDefines_expand ts).betweenScopes env

theorem env_final_expandScoped (w : Workspace) : ((e.expandScoped ts).final w).env = w.env := by
  obtain ⟨result, added, heq⟩ := e.expandScoped_eq ts w.env
  rw [Expansion.final_of_eq (heq w.log)]

theorem outcome_expandScoped_of_env_eq {w w' : Workspace} (h : w.env = w'.env) :
    (e.expandScoped ts).outcome w = (e.expandScoped ts).outcome w' := by
  obtain ⟨result, added, heq⟩ := e.expandScoped_eq ts w.env
  rw [Expansion.outcome_of_eq (heq w.log)]
  rw [h] at heq
  rw [Expansion.outcome_of_eq (heq w'.log)]

theorem env_final_expandText (source : String) (w : Workspace) :
    ((e.expandText source).final w).env = w.env := by
  cases hsource : tokenize source with
  | error fault =>
    have heq : e.expandText source w = Expansion.ending (.error fault) w := by
      show EStateM.bind (Expansion.ofExcept (tokenize source)) e.expandScoped w = _
      rw [hsource]
      rfl
    rw [Expansion.final_of_eq heq]
  | ok ts =>
    have heq : e.expandText source w = e.expandScoped ts w := by
      show EStateM.bind (Expansion.ofExcept (tokenize source)) e.expandScoped w = _
      rw [hsource]
      rfl
    rw [Expansion.final, heq]
    exact e.env_final_expandScoped ts w

theorem expandUnits_eq (units : List (List Token)) (w : Workspace) :
    e.expandUnits units w = units.map fun us => (e.expandScoped us).outcome w := by
  suffices h : ∀ w', w'.env = w.env →
      e.expandUnits units w' = units.map fun us => (e.expandScoped us).outcome w from h w rfl
  induction units with
  | nil => exact fun _ _ => rfl
  | cons us units ih =>
    intro w' hw'
    rw [expandUnits, List.map_cons, e.outcome_expandScoped_of_env_eq us hw',
      ih _ ((e.env_final_expandScoped us w').trans hw')]

end Expander

theorem onlyDefines_loadText (source : String) : (loadText source).OnlyDefines :=
  (Expansion.onlyDefines_ofExcept _).bind fun ts => (Expander.onlyDefines_expand {} ts).discard

/-- Expanding a stream or loading a source changes the innermost scope only, by definitions;
expanding a unit changes nothing, whether it succeeds or not, so that how a unit ends does not
depend on the units before it. -/
theorem Expander.expand_frame (e : Expander) (w : Workspace) :
    (∀ ts, ((e.expand ts).final w).env.Extends w.env) ∧
    (∀ source, ((loadText source).final w).env.Extends w.env) ∧
    (∀ later : Environment, later.Extends w.env → later.scopeCount = w.env.scopeCount ∧
      ∀ name, w.env.current.contains name = true → later.current.contains name = true) ∧
    (∀ ts, ((e.expandScoped ts).final w).env = w.env) ∧
    (∀ source, ((e.expandText source).final w).env = w.env) ∧
    ∀ units, e.expandUnits units w = units.map fun us => (e.expandScoped us).outcome w :=
  ⟨fun ts => (e.onlyDefines_expand ts).extends w,
    fun source => (onlyDefines_loadText source).extends w,
    fun _ hlater => ⟨hlater.scopeCount_eq, fun _ => hlater.contains⟩,
    fun ts => e.env_final_expandScoped ts w,
    fun source => e.env_final_expandText source w,
    fun units => e.expandUnits_eq units w⟩

end TokenMacros
