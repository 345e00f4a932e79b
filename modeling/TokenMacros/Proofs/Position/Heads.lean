import TokenMacros.Expansion.Import
import TokenMacros.Expansion.Head
import TokenMacros.Proofs.Position.Matching

/-!
# Positions in heads and units

Streams that agree up to positions start with calls, decorators and unit invocations that
agree.
-/

namespace TokenMacros

/-! ## Calls -/

theorem head?_any_bare {p : Token → Bool} (hp : ∀ t, p (bare t) = p t) (ts : List Token) :
    (bare ts).head?.any p = ts.head?.any p := by
  cases ts with
  | nil => rfl
  | cons t ts => exact hp t

theorem getLast?_any_bare {p : Token → Bool} (hp : ∀ t, p (bare t) = p t) (ts : List Token) :
    (bare ts).getLast?.any p = ts.getLast?.any p := by
  rw [getLast?_bare]
  cases ts.getLast? with
  | none => rfl
  | some t => exact hp t

theorem splitArgument_bare (ts : List Token) :
    splitArgument (bare ts) = bare (splitArgument ts) := by
  cases ts with
  | nil => rfl
  | cons t ts =>
    have hindent := head?_any_bare (p := fun t => t.kind == .indent) (fun _ => rfl) ts
    rw [bare_cons, splitArgument, splitArgument, hindent, ← bare_cons, splitTree_bare,
      splitTree_bare, bare_ite, bare_ite]
    congr 1
    · exact map_bare (fun p => by rw [fst_bare, interior_bare]; rfl) _
    · congr 1
      exact map_bare (fun p => by rw [fst_bare, interior_bare]; rfl) _

/-! ## Decorators -/

instance : Placed Decoration := ⟨fun d => ⟨bare d.name, bare d.parameters, bare d.item⟩⟩

theorem startsDecorator_bare (ts : List Token) : startsDecorator (bare ts) = startsDecorator ts :=
  head?_any_bare (fun _ => rfl) ts

theorem splitItemFrom_bare (fuel : Nat) (decorator : Bool) (ts : List Token) :
    splitItemFrom fuel decorator (bare ts) = bare (splitItemFrom fuel decorator ts) := by
  induction fuel generalizing decorator ts with
  | zero => rfl
  | succ fuel ih =>
    cases ts with
    | nil => rfl
    | cons t ts =>
      have htree := splitTree_bare (t :: ts)
      rw [bare_cons] at htree
      cases hkind : t.kind with
      | newline =>
        simp only [bare_cons, splitItemFrom, kind_bare, hkind, startsDecorator_bare, ih, bare_ite]
        congr 1
        exact map_bare (consFirst_bare t) _
      | dedent | closer =>
        simp only [bare_cons, splitItemFrom, kind_bare, hkind]
        rfl
      | indent => simp only [bare_cons, splitItemFrom, kind_bare, hkind, htree]
      | opener =>
        simp only [bare_cons, splitItemFrom, kind_bare, hkind, htree]
        cases splitTree (t :: ts) with
        | error e => rfl
        | ok found =>
          obtain ⟨tree, rest⟩ := found
          simp only [bare_ok, bare_mk, ih]
          exact map_bare (fun p => congrArg (·, bare p.2) (bare_append tree p.1).symm) _
      | name | number | string | operator | dollar =>
        simp only [bare_cons, splitItemFrom, kind_bare, hkind, ih]
        exact map_bare (consFirst_bare t) _

theorem splitItem_bare (ts : List Token) : splitItem (bare ts) = bare (splitItem ts) := by
  rw [splitItem, length_bare, startsDecorator_bare, splitItemFrom_bare]
  rfl

theorem splitParameters_bare (ts : List Token) :
    splitParameters (bare ts) = bare (splitParameters ts) := by
  cases ts with
  | nil => rfl
  | cons t ts =>
    rw [bare_cons, splitParameters, splitParameters, isOpener_bare, ← bare_cons, splitTree_bare,
      bare_ite]
    rfl

theorem decoration_read_bare (operator : String) (ts : List Token) :
    Decoration.read operator (bare ts) = bare (Decoration.read operator ts) := by
  match ts with
  | [] | [_] | [_, _] => rfl
  | sign :: name :: op :: ts =>
    simp only [bare_cons, Decoration.read, isOperator_bare, kind_bare, splitParameters_bare,
      bare_ite]
    congr 1
    match splitParameters ts with
    | .error _ | .ok (_, []) => rfl
    | .ok (parameters, line :: behind) =>
      simp only [bare_ok, bare_mk, bare_cons, kind_bare, splitItem_bare, bare_ite]
      congr 1
      match splitItem behind with
      | .error _ | .ok ([], _) | .ok (_ :: _, _) => rfl

theorem itemEnding_bare (item out : List Token) :
    itemEnding (bare item) (bare out) = bare (itemEnding item out) := by
  have hblock := getLast?_any_bare (p := fun t => t.kind == .dedent) (fun _ => rfl) item
  have hline := getLast?_any_bare (p := fun t => t.kind == .newline || t.kind == .dedent)
    (fun _ => rfl) out
  simp only [itemEnding, hblock, hline, bare_ite]
  rfl

/-! ## Units -/

instance : Placed UnitInvocation := ⟨fun d => ⟨bare d.name, bare d.parameters⟩⟩

theorem unitInvocation_read_bare (operator : String) (ts : List Token) :
    UnitInvocation.read operator (bare ts) = bare (UnitInvocation.read operator ts) := by
  match ts with
  | [] | [_] | [_, _] => rfl
  | op :: bracket :: name :: ts =>
    have hparameters : (splitGroup "(" (bare ts)).getD ([], bare ts) =
        bare ((splitGroup "(" ts).getD ([], ts)) := by
      rw [splitGroup_bare]
      cases splitGroup "(" ts <;> rfl
    simp only [bare_cons, UnitInvocation.read, isOperator_bare, isOpener_bare, kind_bare,
      hparameters, bare_ite]
    congr 1
    obtain ⟨parameters, behind⟩ := (splitGroup "(" ts).getD ([], ts)
    cases behind with
    | nil => rfl
    | cons close rest =>
      simp only [bare_mk, bare_cons, isCloser_bare, skipNewline_bare, bare_ite]
      rfl

theorem splitDocstring_bare (ts : List Token) :
    splitDocstring (bare ts) = bare (splitDocstring ts) := by
  match ts with
  | [] | [_] => rfl
  | doc :: line :: ts =>
    simp only [bare_cons, splitDocstring, kind_bare, bare_ite]
    rfl

theorem isModulePath_bare : ∀ ts : List Token, isModulePath (bare ts) = isModulePath ts
  | [] | [_] | [_, _] => rfl
  | name :: point :: t :: ts => by
    simp only [bare_cons, isModulePath, kind_bare, isOperator_bare]
    rw [← bare_cons, isModulePath_bare (t :: ts)]

theorem modulePathText_bare (ts : List Token) : modulePathText (bare ts) = modulePathText ts := by
  refine congrArg String.join ?_
  show (ts.map bare).map Token.text = ts.map Token.text
  rw [List.map_map]
  rfl

end TokenMacros
