import TokenMacros.Proofs.Expansion.Completeness
import TokenMacros.Proofs.Expansion.UnitInvocation
import TokenMacros.Proofs.Rule.Forms

/-!
# Streams without invocations

An `Inert` stream holds no call, no declaration, no decorator at the start of a line
and no unit invocation at its top, as far as the look of its tokens tells. Expansion
hands it back, whatever the macros and the limits:

    Inert e.settings.operator ts → e.expand ts w = .ok ts w    (Expander.expand_of_inert)

What only looks like one of these does no harm: a tree that a head reads before it
decides is always there, since the stream is balanced.
-/

namespace TokenMacros

/-- A decorator with its line: the sign, a name, the operator, parameters in parentheses or none,
and a newline. -/
inductive StartsDecorator (operator : String) : List Token → Prop
  | bare {sign name op line : Token} {rest : List Token} : sign.isOperator "@" = true →
      name.kind = .name → op.isOperator operator = true → line.kind = .newline →
      StartsDecorator operator (sign :: name :: op :: line :: rest)
  | group {sign name op line : Token} {body parameters rest : List Token} :
      sign.isOperator "@" = true → name.kind = .name → op.isOperator operator = true →
      Enclosed "(" ")" body parameters → line.kind = .newline →
      StartsDecorator operator (sign :: name :: op :: (parameters ++ line :: rest))

/-- A balanced stream without a call, a declaration, a decorator at the start of a line, and a unit
invocation at its top, behind a line with a string or not. -/
structure Inert (operator : String) (ts : List Token) : Prop where
  balanced : Balanced ts
  noDeclaration : ∀ i < ts.length, startsDeclaration operator (ts.drop i) = false
  noCall : ∀ i < ts.length, startsCall operator (ts.drop i) = false
  noDecorator : ∀ i < ts.length, atLineStart (ts.take i).reverse = true →
    ¬ StartsDecorator operator (ts.drop i)
  noInvocation : (unitInvocationPattern operator).readAt (splitDocstring ts).2 0 = none

variable {operator : String} {apply : Apply} {ts us before : List Token} {w : Workspace}

/-! ## Decorators -/

/-- Behind the operator of a decorator, the parameters are read wherever the stream is balanced. -/
theorem exists_splitParameters (h : Balanced (before ++ ts)) :
    ∃ p, splitParameters ts = .ok p := by
  cases ts with
  | nil => exact ⟨_, rfl⟩
  | cons t us =>
    rw [splitParameters]
    split
    · next hopener =>
      obtain ⟨tree, rest, hsplit⟩ := h.exists_splitTree (role_of_isOpener_paren hopener)
      exact ⟨_, hsplit⟩
    · exact ⟨_, rfl⟩

theorem splitParameters_eq_ok {parameters rest : List Token}
    (h : splitParameters ts = .ok (parameters, rest)) :
    parameters ++ rest = ts ∧ (parameters = [] ∨ ∃ body, Enclosed "(" ")" body parameters) := by
  unfold splitParameters at h
  split at h
  · cases h
    exact ⟨rfl, Or.inl rfl⟩
  · next t us =>
    split at h
    · next hopener =>
      obtain ⟨inner, closer, hcloser, hinner, rfl, rfl⟩ :=
        (splitTree_opens_iff (role_of_isOpener_paren hopener)).1 h
      exact ⟨by simp, Or.inr ⟨inner, .mk hopener hinner (closes_paren_iff.1 hcloser)⟩⟩
    · cases h
      exact ⟨rfl, Or.inl rfl⟩

theorem splitParameters_of_enclosed {body parameters : List Token}
    (h : Enclosed "(" ")" body parameters) (rest : List Token) :
    splitParameters (parameters ++ rest) = .ok (parameters, rest) := by
  rw [← splitTree_of_tokenTree h.tokenTree rest]
  obtain ⟨hopener, -, -⟩ := h
  exact if_pos hopener

/-- The test for a decorator with its line. -/
def decoratorLine (operator : String) : List Token → Bool
  | sign :: name :: op :: ts =>
    sign.isOperator "@" && name.kind == .name && op.isOperator operator &&
      match splitParameters ts with
      | .ok (_, line :: _) => line.kind == .newline
      | _ => false
  | _ => false

theorem startsDecorator_iff : StartsDecorator operator ts ↔ decoratorLine operator ts = true := by
  constructor
  · intro h
    cases h with
    | @bare sign name op line rest hsign hname hop hline =>
      have hsplit : splitParameters (line :: rest) = .ok ([], line :: rest) :=
        if_neg (by simp [Token.isOpener, hline])
      simp [decoratorLine, hsign, hname, hop, hsplit, hline]
    | @group sign name op line body parameters rest hsign hname hop hbody hline =>
      simp [decoratorLine, hsign, hname, hop, splitParameters_of_enclosed hbody, hline]
  · intro h
    unfold decoratorLine at h
    split at h
    · next sign name op us =>
      simp only [Bool.and_eq_true, beq_iff_eq] at h
      obtain ⟨⟨⟨hsign, hname⟩, hop⟩, h⟩ := h
      split at h
      · next parameters line rest hsplit =>
        obtain ⟨rfl, rfl | ⟨body, hbody⟩⟩ := splitParameters_eq_ok hsplit
        · exact .bare hsign hname hop (beq_iff_eq.1 h)
        · exact .group hsign hname hop hbody (beq_iff_eq.1 h)
      · cases h
    · cases h

instance (operator : String) (ts : List Token) : Decidable (StartsDecorator operator ts) :=
  decidable_of_iff _ startsDecorator_iff.symm

/-! ## Heads -/

theorem declaration_read_of_not_starts (h : startsDeclaration operator ts = false) :
    Declaration.read operator ts = .ok none := by
  unfold Declaration.read
  split
  · next keyword op us =>
    split
    · next hdecl => simp [startsDeclaration, hdecl] at h
    · rfl
  · rfl

theorem splitArgument_of_not_starts (h : startsArgument ts = false) :
    splitArgument ts = .ok none := by
  unfold splitArgument
  split
  · rfl
  · next t us =>
    rw [startsArgument, Bool.or_eq_false_iff] at h
    rw [if_neg (Bool.eq_false_iff.1 h.1), if_neg (Bool.eq_false_iff.1 h.2)]

theorem callHead_of_not_starts (h : startsCall operator ts = false) :
    callHead apply operator ts w = .ok none w := by
  unfold callHead
  split
  · next name op us =>
    split
    · next hcall =>
      have hargument : startsArgument us = false := by
        simpa [startsCall, hcall] using h
      rw [splitArgument_of_not_starts hargument]
      rfl
    · rfl
  · rfl

theorem decoration_read_of_sign {t : Token} (h : t.isOperator "@" = false) (next : List Token) :
    Decoration.read operator (t :: next) = .ok none := by
  unfold Decoration.read
  split
  · next heq =>
    cases heq
    rw [if_neg]
    rintro ⟨hsign, -⟩
    rw [h] at hsign
    cases hsign
  · rfl

theorem decoration_read_of_not_starts (hbalanced : Balanced (before ++ ts))
    (h : ¬ StartsDecorator operator ts) : Decoration.read operator ts = .ok none := by
  unfold Decoration.read
  split
  · next sign name op us =>
    split
    · next hhead =>
      obtain ⟨hsign, hname, hop⟩ := hhead
      have hbehind : Balanced ((before ++ [sign, name, op]) ++ us) := by
        simpa using hbalanced
      obtain ⟨⟨parameters, rest⟩, hsplit⟩ := exists_splitParameters hbehind
      rw [hsplit]
      cases rest with
      | nil => rfl
      | cons line behind =>
        obtain ⟨rfl, hparameters⟩ := splitParameters_eq_ok hsplit
        have hline : line.kind ≠ .newline := by
          intro hline
          rcases hparameters with rfl | ⟨body, hbody⟩
          · exact h (.bare hsign hname hop hline)
          · exact h (.group hsign hname hop hbody hline)
        exact if_neg hline
    · rfl
  · rfl

/-! ## Expansion -/

/-- At no token of an inert stream the scan changes anything. -/
theorem Inert.attempt_eq_none {e : Expander} (h : Inert e.settings.operator ts)
    {passed next : List Token} {t : Token} (hsplit : ts = passed ++ t :: next) :
    e.attempt (atLineStart passed.reverse) (t :: next) w = .ok none w := by
  have hlt : passed.length < ts.length := by
    rw [hsplit, List.length_append, List.length_cons]
    omega
  have hdrop : ts.drop passed.length = t :: next := by
    rw [hsplit, List.drop_left]
  have htake : ts.take passed.length = passed := by
    rw [hsplit, List.take_left]
  have hdecl := h.noDeclaration _ hlt
  have hcall := h.noCall _ hlt
  have hdecor := h.noDecorator _ hlt
  rw [hdrop] at hdecl hcall hdecor
  rw [htake] at hdecor
  refine firstChange_of_none fun head hhead hstart => ?_
  simp only [Expander.heads, List.mem_cons, List.not_mem_nil, or_false] at hhead
  rcases hhead with rfl | rfl | rfl
  · exact declareHead_of_read_none (declaration_read_of_not_starts hdecl) w
  · exact decoratorHead_of_read_none
      (decoration_read_of_not_starts (hsplit ▸ h.balanced) (hdecor (hstart rfl))) w
  · exact callHead_of_not_starts hcall

/-- Expansion hands back an inert stream as it is, and leaves the macros and the log alone. -/
theorem Expander.expand_of_inert (e : Expander) (h : Inert e.settings.operator ts)
    (w : Workspace) : e.expand ts w = .ok ts w := by
  have htop : runUnitTop e.settings.operator e.unitStep? ts w = .ok none w :=
    runUnitTop_of_read_none (UnitInvocation.read_eq_none_iff.2 h.noInvocation)
  have hrun : ScanRun e.attempt [] ts w [] ts w := .of_unchanged fun passed t next hsplit => by
    rw [List.append_nil]
    exact h.attempt_eq_none hsplit
  exact expand_eq_ok_iff.2 ⟨[], h.balanced, none, w, htop, hrun, Nat.zero_le _⟩

/-! ## Near misses -/

/-- The unit

    "doc"
    ![f(a) b]
    f!: a
    @f! b
    a @f!
    macro_rules f

no line of which invokes or declares anything. -/
def nearMisses : List Token :=
  [⟨.string, "\"doc\"", {}⟩, .newline {},
    ⟨.operator, "!", {}⟩, ⟨.opener, "[", {}⟩, ⟨.name, "f", {}⟩, ⟨.opener, "(", {}⟩, ⟨.name, "a", {}⟩,
    ⟨.closer, ")", {}⟩, ⟨.name, "b", {}⟩, ⟨.closer, "]", {}⟩, .newline {},
    ⟨.name, "f", {}⟩, ⟨.operator, "!", {}⟩, ⟨.operator, ":", {}⟩, ⟨.name, "a", {}⟩, .newline {},
    ⟨.operator, "@", {}⟩, ⟨.name, "f", {}⟩, ⟨.operator, "!", {}⟩, ⟨.name, "b", {}⟩, .newline {},
    ⟨.name, "a", {}⟩, ⟨.operator, "@", {}⟩, ⟨.name, "f", {}⟩, ⟨.operator, "!", {}⟩, .newline {},
    ⟨.name, "macro_rules", {}⟩, ⟨.name, "f", {}⟩, .newline {}]

/-- A workspace in which `f` is a macro. -/
def nearMissMacros : Workspace := { env := (default : Environment).define "f" .stringify }

theorem inert_nearMisses : Inert "!" nearMisses where
  balanced := by decide
  noDeclaration := by decide
  noCall := by decide
  noDecorator := by decide
  noInvocation := by decide

/-- Even where no splice is allowed, the near misses stay as they are. -/
theorem expand_nearMisses : Inert "!" nearMisses ∧
    Expander.expand ⟨⟨0, "!"⟩, ∅⟩ nearMisses nearMissMacros = .ok nearMisses nearMissMacros :=
  ⟨inert_nearMisses, Expander.expand_of_inert ⟨⟨0, "!"⟩, ∅⟩ inert_nearMisses nearMissMacros⟩

end TokenMacros
