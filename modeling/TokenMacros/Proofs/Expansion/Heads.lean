import TokenMacros.Expansion.Run
import TokenMacros.Proofs.Expansion.Step

/-!
# What a change of a head is made of

For each form of head, all that a step which tries it and succeeds may have done.
-/

namespace TokenMacros

variable {operator : String} {apply : Apply} {ts : List Token} {w w' : Workspace}
  {r : Option HeadChange}

theorem declareHead_eq_ok (h : declareHead operator ts w = .ok r w') :
    (Declaration.read operator ts = .ok none ∧ r = none ∧ w' = w) ∨
    ∃ d rest, Declaration.read operator ts = .ok (some (d, rest)) ∧
      r = some ⟨ts.length - rest.length, []⟩ ∧
      w' = { w with env := w.env.define d.name (.rules ⟨d.name, d.rules⟩) } := by
  obtain ⟨found, w₁, hfound, h⟩ := Expansion.bind_eq_ok.1 h
  obtain ⟨hread, rfl⟩ := Expansion.ofExcept_eq_ok.1 hfound
  cases found with
  | none =>
    obtain ⟨rfl, rfl⟩ := Expansion.pure_eq_ok.1 h
    exact Or.inl ⟨hread, rfl, rfl⟩
  | some found =>
    obtain ⟨d, rest⟩ := found
    cases h
    exact Or.inr ⟨d, rest, hread, rfl, rfl⟩

theorem callHead_eq_ok (h : callHead apply operator ts w = .ok r w') :
    (r = none ∧ w' = w ∧ ∀ name op us, ts = name :: op :: us → name.kind = .name →
      op.isOperator operator → splitArgument us = .ok none) ∨
    ∃ name op us argument block rest out, ts = name :: op :: us ∧ name.kind = .name ∧
      op.isOperator operator ∧ splitArgument us = .ok (some ((argument, block), rest)) ∧
      invoke apply name argument w = .ok out w' ∧
      r = some ⟨us.length + 2 - rest.length,
        out ++ if block then [Token.newline name.position] else []⟩ := by
  unfold callHead at h
  split at h
  · next name op us =>
    split at h
    · next hcall =>
      obtain ⟨found, w₁, hfound, h⟩ := Expansion.bind_eq_ok.1 h
      obtain ⟨hsplit, rfl⟩ := Expansion.ofExcept_eq_ok.1 hfound
      cases found with
      | none =>
        obtain ⟨rfl, rfl⟩ := Expansion.pure_eq_ok.1 h
        refine Or.inl ⟨rfl, rfl, ?_⟩
        rintro _ _ _ ⟨⟩ - -
        exact hsplit
      | some found =>
        obtain ⟨⟨argument, block⟩, rest⟩ := found
        obtain ⟨out, w₂, hinvoke, h⟩ := Expansion.bind_eq_ok.1 h
        obtain ⟨rfl, rfl⟩ := Expansion.pure_eq_ok.1 h
        exact Or.inr ⟨name, op, us, argument, block, rest, out, rfl, hcall.1, hcall.2, hsplit,
          hinvoke, rfl⟩
    · next hcall =>
      obtain ⟨rfl, rfl⟩ := Expansion.pure_eq_ok.1 h
      refine Or.inl ⟨rfl, rfl, ?_⟩
      rintro _ _ _ ⟨⟩ hname hop
      exact absurd ⟨hname, hop⟩ hcall
  · next hshort =>
    obtain ⟨rfl, rfl⟩ := Expansion.pure_eq_ok.1 h
    refine Or.inl ⟨rfl, rfl, ?_⟩
    rintro name op us rfl - -
    exact absurd rfl (hshort name op us)

theorem decoratorHead_eq_ok (h : decoratorHead apply operator ts w = .ok r w') :
    (Decoration.read operator ts = .ok none ∧ r = none ∧ w' = w) ∨
    ∃ d rest out, Decoration.read operator ts = .ok (some (d, rest)) ∧
      invoke apply d.name (d.parameters ++ d.item) w = .ok out w' ∧
      r = some ⟨ts.length - rest.length, out ++ itemEnding d.item out⟩ := by
  obtain ⟨found, w₁, hfound, h⟩ := Expansion.bind_eq_ok.1 h
  obtain ⟨hread, rfl⟩ := Expansion.ofExcept_eq_ok.1 hfound
  cases found with
  | none =>
    obtain ⟨rfl, rfl⟩ := Expansion.pure_eq_ok.1 h
    exact Or.inl ⟨hread, rfl, rfl⟩
  | some found =>
    obtain ⟨d, rest⟩ := found
    obtain ⟨out, w₂, hinvoke, h⟩ := Expansion.bind_eq_ok.1 h
    obtain ⟨rfl, rfl⟩ := Expansion.pure_eq_ok.1 h
    exact Or.inr ⟨d, rest, out, hread, hinvoke, rfl⟩

/-! ## Macros with rules -/

section rules

variable {set : RuleSet} {nesting : Nat}

/-- A head is changed by one of the rules, whose pattern has read it. -/
theorem applyRulesToHead_eq_some {rules : List Rule} {change : HeadChange}
    (h : applyRulesToHead rules ts = .ok (some change)) :
    ∃ rule ∈ rules, ∃ found, rule.pattern.readAt ts 0 = some found ∧
      rule.template.fill found.captures = .ok change.tokens ∧ change.length = found.stop := by
  induction rules with
  | nil => cases h
  | cons rule rules ih =>
    rw [applyRulesToHead] at h
    split at h
    · obtain ⟨later, hmem, hread⟩ := ih h
      exact ⟨later, List.mem_cons_of_mem _ hmem, hread⟩
    · next found hread =>
      obtain ⟨out, hfill, heq⟩ := map_eq_ok_iff.1 h
      cases heq
      exact ⟨rule, List.mem_cons_self, found, hread, hfill, rfl⟩

theorem runWithin_rules : Macro.runWithin nesting (.rules set) ts =
    .ofExcept (applyRules set.rules ts) := by
  cases nesting <;> simp only [Macro.runWithin, Macro.runWith]

/-- Where a name stands for a macro with rules, the rules are applied. -/
theorem invoke_rules_eq_ok_iff {name : Token} {argument out : List Token}
    (hfind : w.env.find? name.text = some (.rules set)) :
    invoke (Macro.runWithin nesting) name argument w = .ok out w' ↔
      applyRules set.rules argument = .ok (some out) ∧ w' = w := by
  rw [invoke, Expansion.environment_bind, hfind]
  simp only [runWithin_rules, Expansion.bind_eq_ok, Expansion.ofExcept_eq_ok]
  constructor
  · rintro ⟨found, w₁, ⟨happly, rfl⟩, h⟩
    cases found with
    | none => exact absurd h Expansion.fail_ne_ok
    | some found =>
      obtain ⟨rfl, rfl⟩ := Expansion.pure_eq_ok.1 h
      exact ⟨happly, rfl⟩
  · rintro ⟨happly, rfl⟩
    exact ⟨some out, w', ⟨happly, rfl⟩, rfl⟩

end rules

/-! ## Heads that do not apply -/

theorem declareHead_of_read_none (h : Declaration.read operator ts = .ok none) (w : Workspace) :
    declareHead operator ts w = .ok none w := by
  show EStateM.bind (Expansion.ofExcept (Declaration.read operator ts)) _ w = _
  rw [h]
  rfl

theorem decoratorHead_of_read_none (h : Decoration.read operator ts = .ok none) (w : Workspace) :
    decoratorHead apply operator ts w = .ok none w := by
  show EStateM.bind (Expansion.ofExcept (Decoration.read operator ts)) _ w = _
  rw [h]
  rfl

/-! ## Trying several -/

/-- Where nothing changes, no head that was tried changed anything. -/
theorem firstChange_eq_none {heads : List HeadMacro} {lineStart : Bool}
    (h : firstChange apply heads lineStart ts w = .ok none w') (head : HeadMacro)
    (hmem : head ∈ heads) (hstart : head.needsLineStart = true → lineStart = true) :
    ∃ w₁ w₂, head.changeHead apply ts w₁ = .ok none w₂ := by
  induction heads generalizing w with
  | nil => cases hmem
  | cons first heads ih =>
    unfold firstChange at h
    split at h
    · next hskip =>
      rcases List.mem_cons.1 hmem with rfl | hmem
      · simp only [Bool.and_eq_true, Bool.not_eq_true'] at hskip
        rw [hstart hskip.1] at hskip
        cases hskip.2
      · exact ih h hmem
    · obtain ⟨found, w₁, hfirst, h⟩ := Expansion.bind_eq_ok.1 h
      cases found with
      | some change => cases (Expansion.pure_eq_ok.1 h).1
      | none =>
        rcases List.mem_cons.1 hmem with rfl | hmem
        · exact ⟨w, w₁, hfirst⟩
        · exact ih h hmem

/-- Where none of the heads changes anything, trying them changes nothing. -/
theorem firstChange_of_none {heads : List HeadMacro} {lineStart : Bool}
    (h : ∀ head ∈ heads, (head.needsLineStart = true → lineStart = true) →
      head.changeHead apply ts w = .ok none w) :
    firstChange apply heads lineStart ts w = .ok none w := by
  induction heads with
  | nil => rfl
  | cons head heads ih =>
    rw [List.forall_mem_cons] at h
    unfold firstChange
    split
    · exact ih h.2
    · next hskip =>
      have hstart : head.needsLineStart = true → lineStart = true := fun hneeds => by
        simpa [hneeds] using hskip
      rw [Expansion.bind_of_ok (h.1 hstart)]
      exact ih h.2

/-- Where the heads before it change nothing, a head is tried. -/
theorem firstChange_of_some {first heads : List HeadMacro} {head : HeadMacro} {lineStart : Bool}
    {change : HeadChange}
    (hfirst : ∀ head ∈ first, (head.needsLineStart = true → lineStart = true) →
      head.changeHead apply ts w = .ok none w)
    (hstart : head.needsLineStart = true → lineStart = true)
    (h : head.changeHead apply ts w = .ok (some change) w') :
    firstChange apply (first ++ head :: heads) lineStart ts w = .ok (some change) w' := by
  induction first with
  | nil =>
    have htried : ¬ (head.needsLineStart && !lineStart) = true := by simpa using hstart
    rw [List.nil_append, firstChange, if_neg htried, Expansion.bind_of_ok h]
    rfl
  | cons other first ih =>
    rw [List.forall_mem_cons] at hfirst
    rw [List.cons_append, firstChange]
    split
    · exact ih hfirst.2
    · next hskip =>
      have hother : other.needsLineStart = true → lineStart = true := fun hneeds => by
        simpa [hneeds] using hskip
      rw [Expansion.bind_of_ok (hfirst.1 hother)]
      exact ih hfirst.2

/-- A change is made by one of the heads, and at the start of a line if that one needs it. -/
theorem firstChange_eq_some {heads : List HeadMacro} {lineStart : Bool} {change : HeadChange}
    (h : firstChange apply heads lineStart ts w = .ok (some change) w') :
    ∃ head ∈ heads, (head.needsLineStart = true → lineStart = true) ∧
      ∃ w₁, head.changeHead apply ts w₁ = .ok (some change) w' := by
  induction heads generalizing w with
  | nil => cases (Expansion.pure_eq_ok.1 h).1
  | cons first heads ih =>
    unfold firstChange at h
    split at h
    · obtain ⟨head, hmem, hrest⟩ := ih h
      exact ⟨head, List.mem_cons_of_mem _ hmem, hrest⟩
    · next hskip =>
      obtain ⟨found, w₁, hfirst, h⟩ := Expansion.bind_eq_ok.1 h
      cases found with
      | some change' =>
        obtain ⟨heq, rfl⟩ := Expansion.pure_eq_ok.1 h
        cases heq
        refine ⟨first, List.mem_cons_self, fun hneeds => ?_, w, hfirst⟩
        simpa [hneeds] using hskip
      | none =>
        obtain ⟨head, hmem, hrest⟩ := ih h
        exact ⟨head, List.mem_cons_of_mem _ hmem, hrest⟩

end TokenMacros
