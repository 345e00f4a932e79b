import Mathlib.Data.List.Forall2
import TokenMacros.Proofs.Expansion.Frame
import TokenMacros.Proofs.Expansion.Step
import TokenMacros.Proofs.Position.Heads

/-!
# Steps that agree up to positions

Two environments agree when they hold macros that agree up to positions under the same
names. Two steps agree when, from environments that agree, they end with values or faults
that agree, log the same texts, and leave environments that agree again
(`Expansion.Agree`). What steps are built with keeps this.
-/

namespace TokenMacros

/-! ## Macros -/

instance : Placed RuleSet := ⟨fun set => { set with rules := bare set.rules }⟩

/-- The macro without positions. -/
def HeadMacro.bare : HeadMacro → HeadMacro
  | .rules set => .rules (Placed.bare set)
  | head => head

instance : Placed HeadMacro := ⟨HeadMacro.bare⟩

mutual

/-- The macro without positions. -/
def Macro.bare : Macro → Macro
  | .rules set => .rules (Placed.bare set)
  | .fixpoint inner limit => .fixpoint inner.bare limit
  | .chain macros => .chain (Macro.bareEach macros)
  | .heads macros limit => .heads (Placed.bare macros) limit
  | .stringify => .stringify
  | .debug => .debug
  | .unitTop operator macros => .unitTop operator macros

/-- The macros without positions. -/
def Macro.bareEach : List Macro → List Macro
  | [] => []
  | m :: ms => m.bare :: Macro.bareEach ms

end

instance : Placed Macro := ⟨Macro.bare⟩

/-! ## Environments -/

/-- The scopes hold macros that agree up to positions under the same names. -/
def Scope.Agree (s s' : Scope) : Prop := ∀ name, bare (s.find? name) = bare (s'.find? name)

theorem Scope.Agree.insert {s s' : Scope} (h : Scope.Agree s s') (name : String) {m m' : Macro}
    (hm : bare m = bare m') : Scope.Agree (s.insert name m) (s'.insert name m') := by
  intro other
  rw [Table.find?_insert, Table.find?_insert, bare_ite, bare_ite, bare_some, bare_some, hm, h other]

namespace Environment

/-- The environments hold macros that agree up to positions under the same names, and the same
imports are under way. -/
structure Agree (e e' : Environment) : Prop where
  current : Scope.Agree e.current e'.current
  outer : List.Forall₂ Scope.Agree e.outer e'.outer
  shared : Scope.Agree e.shared e'.shared
  importing : e.importing = e'.importing

variable {e e' : Environment}

theorem Agree.refl (e : Environment) : e.Agree e :=
  ⟨fun _ => rfl, List.forall₂_same.2 fun _ _ _ => rfl, fun _ => rfl, rfl⟩

theorem Agree.find? (h : e.Agree e') (name : String) :
    bare (e.find? name) = bare (e'.find? name) := by
  have hor : ∀ o o' : Option Macro, bare (o.or o') = (bare o).or (bare o') := by
    intro o o'
    cases o <;> rfl
  have hscopes : ∀ {scopes scopes' : List Scope}, List.Forall₂ Scope.Agree scopes scopes' →
      bare (scopes.findSome? (·.find? name)) = bare (scopes'.findSome? (·.find? name)) := by
    intro scopes scopes' h
    induction h with
    | nil => rfl
    | @cons s s' scopes scopes' hs _ ih =>
      simp only [List.findSome?_cons]
      rcases option_of_agree (hs name) with ⟨hfind, hfind'⟩ | ⟨m, m', hfind, hfind', hm⟩
      · simp only [hfind, hfind', ih]
      · simp only [hfind, hfind', bare_some, hm]
  rw [Environment.find?, Environment.find?, hor, hor, hscopes (.cons h.current h.outer),
    h.shared name]

theorem Agree.define (h : e.Agree e') (name : String) {m m' : Macro} (hm : bare m = bare m') :
    (e.define name m).Agree (e'.define name m') :=
  ⟨h.current.insert name hm, h.outer, h.shared, h.importing⟩

theorem Agree.enterModule (h : e.Agree e') (module : String) :
    (e.enterModule module).Agree (e'.enterModule module) :=
  ⟨h.current, h.outer, h.shared, congrArg (module :: ·) h.importing⟩

theorem Agree.leaveModule (h : e.Agree e') : e.leaveModule.Agree e'.leaveModule :=
  ⟨h.current, h.outer, h.shared, congrArg List.tail h.importing⟩

end Environment

/-! ## Steps -/

namespace Expansion

variable {α β : Type} [Placed α] [Placed β]

/-- From environments that agree, the steps end with values or faults that agree, log the same
texts, and leave environments that agree. -/
def Agree (x y : Expansion α) : Prop :=
  ∀ w v : Workspace, w.env.Agree v.env →
    bare (x.outcome w) = bare (y.outcome v) ∧ (x.final w).env.Agree (y.final v).env ∧
      ∃ added, (x.final w).log = w.log ++ added ∧ (y.final v).log = v.log ++ added

variable {x y : Expansion α} {f g : α → Expansion β}

theorem agree_of_eq {r r' : Except Fault α} (hr : bare r = bare r')
    (hx : ∀ w, x w = ending r w) (hy : ∀ v, y v = ending r' v) : x.Agree y := by
  intro w v h
  rw [outcome_of_eq (hx w), outcome_of_eq (hy v), final_of_eq (hx w), final_of_eq (hy v)]
  exact ⟨hr, h, [], (List.append_nil _).symm, (List.append_nil _).symm⟩

theorem agree_pure {a b : α} (h : bare a = bare b) : (pure a : Expansion α).Agree (pure b) :=
  agree_of_eq (show bare (.ok a : Except Fault α) = bare (.ok b) from congrArg Except.ok h)
    (fun _ => rfl) (fun _ => rfl)

theorem agree_fail {cause cause' : Cause} (h : cause.bare = cause'.bare) (p q : Position) :
    (fail cause p : Expansion α).Agree (fail cause' q) :=
  agree_of_eq (show bare (.error ⟨cause, p⟩ : Except Fault α) = bare (.error ⟨cause', q⟩) from
    congrArg (fun c => (Except.error ⟨c, {}⟩ : Except Fault α)) h) (fun _ => rfl) (fun _ => rfl)

theorem agree_ofExcept {r r' : Except Fault α} (h : bare r = bare r') :
    (ofExcept r).Agree (ofExcept r') :=
  agree_of_eq h (fun _ => by cases r <;> rfl) (fun _ => by cases r' <;> rfl)

theorem agree_log (text : String) : (log text).Agree (log text) := by
  intro w v h
  exact ⟨rfl, h, [text], rfl, rfl⟩

theorem agree_define (name : String) {m m' : Macro} (hm : bare m = bare m') :
    Agree (modifyEnvironment fun e => e.define name m)
      (modifyEnvironment fun e => e.define name m') := by
  intro w v h
  exact ⟨rfl, h.define name hm, [], (List.append_nil _).symm, (List.append_nil _).symm⟩

theorem agree_environment {f g : Environment → Expansion α}
    (h : ∀ e e', e.Agree e' → (f e).Agree (g e')) :
    Agree (environment >>= f) (environment >>= g) :=
  fun w v hwv => h w.env v.env hwv w v hwv

theorem Agree.bind (hx : x.Agree y) (hf : ∀ a b, bare a = bare b → (f a).Agree (g b)) :
    Agree (x >>= f) (y >>= g) := by
  intro w v h
  have hxy := hx w v h
  cases hxw : x w with
  | ok a w₁ =>
    cases hyv : y v with
    | ok b v₁ =>
      simp only [outcome, final, hxw, hyv] at hxy
      obtain ⟨hab, henv, added, hlog, hlog'⟩ := hxy
      obtain ⟨hr, henv', added', hfinal, hfinal'⟩ := hf a b (Except.ok.inj hab) w₁ v₁ henv
      simp only [outcome, final, bind_of_ok hxw, bind_of_ok hyv] at hr henv' hfinal hfinal' ⊢
      refine ⟨hr, henv', added ++ added', ?_, ?_⟩
      · rw [hfinal, hlog, List.append_assoc]
      · rw [hfinal', hlog', List.append_assoc]
    | error e v₁ =>
      simp only [outcome, final, hxw, hyv] at hxy
      cases hxy.1
  | error e w₁ =>
    cases hyv : y v with
    | ok b v₁ =>
      simp only [outcome, final, hxw, hyv] at hxy
      cases hxy.1
    | error e' v₁ =>
      simp only [outcome, final, hxw, hyv] at hxy
      simp only [outcome, final, bind_of_error hxw, bind_of_error hyv]
      obtain ⟨hee, hrest⟩ := hxy
      exact ⟨congrArg Except.error (Except.error.inj hee), hrest⟩

/-- Steps that go on where the first part found something. -/
theorem Agree.bind_option {x y : Expansion (Option α)} {f g : Option α → Expansion β}
    (hx : x.Agree y) (hnone : (f none).Agree (g none))
    (hsome : ∀ a b, bare a = bare b → (f (some a)).Agree (g (some b))) :
    Agree (x >>= f) (y >>= g) := by
  refine hx.bind fun o o' ho => ?_
  rcases option_of_agree ho with ⟨rfl, rfl⟩ | ⟨a, b, rfl, rfl, hab⟩
  · exact hnone
  · exact hsome a b hab

theorem Agree.discard (hx : x.Agree y) :
    Agree (Functor.discard x : Expansion Unit) (Functor.discard y) :=
  hx.bind fun _ _ _ => agree_pure rfl

theorem Agree.betweenModule (hx : x.Agree y) (module : String) :
    Agree (between (·.enterModule module) (·.leaveModule) x)
      (between (·.enterModule module) (·.leaveModule) y) := by
  intro w v h
  have hxy := hx { w with env := w.env.enterModule module }
    { v with env := v.env.enterModule module } (h.enterModule module)
  simp only [outcome_between, final_between]
  exact ⟨hxy.1, hxy.2.1.leaveModule, hxy.2.2⟩

end Expansion

end TokenMacros
