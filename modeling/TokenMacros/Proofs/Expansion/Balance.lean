import TokenMacros.Proofs.Expansion.Heads
import TokenMacros.Proofs.Expansion.Stages
import TokenMacros.Proofs.Token.Pairing
import TokenMacros.Proofs.Token.Tree

/-!
# Expansion keeps streams balanced

Whatever is taken out of a stream is balanced, whether the stream is or not:
declarations, decorators with their items, calls, and invocations at the top of a
unit. What is put in is checked. So a balanced stream stays balanced from splice to
splice, whatever the macros are (`Expander.expand_balanced`).
-/

namespace TokenMacros

variable {operator : String} {apply : Apply} {ts rest : List Token} {w w' : Workspace}

/-! ## Declarations -/

theorem leftOf_skipNewline (ts : List Token) : LeftOf ts (skipNewline ts) := by
  unfold skipNewline
  split
  · exact .refl []
  · split
    · next h => exact .plain (Token.role_of_newline h) (.refl _)
    · exact .refl _

theorem leftOf_of_splitBlock {body : List Token} (h : splitBlock ts = some (body, rest)) :
    LeftOf ts rest := by
  unfold splitBlock at h
  split at h
  · cases h
  · split at h
    · split at h
      · next hs =>
        cases h
        exact leftOf_of_splitTree hs
      · cases h
    · cases h

theorem leftOf_of_declaration_split {found : Token × List Token}
    (h : Declaration.split? ts = some (found, rest)) : LeftOf ts rest := by
  unfold Declaration.split? at h
  split at h
  · split at h
    · next hname =>
      obtain ⟨⟨body, behind⟩, hblock, heq⟩ := Option.map_eq_some_iff.1 h
      cases heq
      exact .plain (Token.role_of_name hname.1) (.plain (role_of_isOperator hname.2)
        ((leftOf_skipNewline _).trans (leftOf_of_splitBlock hblock)))
    · cases h
  · cases h

theorem leftOf_of_declaration_read {d : Declaration}
    (h : Declaration.read operator ts = .ok (some (d, rest))) : LeftOf ts rest := by
  unfold Declaration.read at h
  split at h
  · split at h
    · next hkeyword =>
      split at h
      · cases h
      · next hsplit =>
        split at h
        · cases h
        · obtain ⟨rules, -, heq⟩ := map_eq_ok_iff.1 h
          cases heq
          exact .plain (role_of_isWord hkeyword.1) (.plain (role_of_isOperator hkeyword.2)
            (leftOf_of_declaration_split hsplit))
    · cases h
  · cases h

/-! ## Calls -/

theorem leftOf_of_splitArgument {found : List Token × Bool}
    (h : splitArgument ts = .ok (some (found, rest))) : LeftOf ts rest := by
  unfold splitArgument at h
  split at h
  · cases h
  · split at h
    · obtain ⟨⟨tree, behind⟩, hs, heq⟩ := map_eq_ok_iff.1 h
      cases heq
      exact leftOf_of_splitTree hs
    · split at h
      · next hblock =>
        simp only [Bool.and_eq_true] at hblock
        obtain ⟨⟨tree, behind⟩, hs, heq⟩ := map_eq_ok_iff.1 h
        cases heq
        exact .plain (role_of_isOperator hblock.1) (leftOf_of_splitTree hs)
      · cases h

/-! ## Decorators -/

theorem leftOf_of_splitParameters {parameters : List Token}
    (h : splitParameters ts = .ok (parameters, rest)) : LeftOf ts rest := by
  unfold splitParameters at h
  split at h
  · cases h
    exact .refl []
  · split at h
    · exact leftOf_of_splitTree h
    · cases h
      exact .refl _

/-- An item that is cut off is balanced, and nothing is lost. -/
theorem splitItemFrom_append {fuel : Nat} {decorator : Bool} {item : List Token}
    (h : splitItemFrom fuel decorator ts = .ok (item, rest)) :
    Balanced item ∧ item ++ rest = ts := by
  induction fuel generalizing decorator ts item with
  | zero =>
    cases h
    exact ⟨.nil, rfl⟩
  | succ fuel ih =>
    cases ts with
    | nil =>
      cases h
      exact ⟨.nil, rfl⟩
    | cons t ts =>
      have hplain : t.role = .plain → ∀ {flag}, (splitItemFrom fuel flag ts).map (consFirst t)
          = .ok (item, rest) → Balanced item ∧ item ++ rest = t :: ts := by
        intro hrole flag h
        obtain ⟨tail, hs, rfl⟩ := map_consFirst_eq_ok.1 h
        obtain ⟨htail, rfl⟩ := ih hs
        exact ⟨.plain hrole htail, rfl⟩
      rw [splitItemFrom] at h
      cases hkind : t.kind <;> simp only [hkind] at h
      case newline =>
        split at h
        · exact hplain (Token.role_of_newline hkind) h
        · cases h
          exact ⟨.nil, rfl⟩
      case dedent | closer =>
        cases h
        exact ⟨.nil, rfl⟩
      case indent => exact ⟨splitTree_balanced h, splitTree_append h⟩
      case opener =>
        split at h
        · cases h
        · next tree behind hs =>
          obtain ⟨⟨tail, left⟩, hitem, heq⟩ := map_eq_ok_iff.1 h
          cases heq
          obtain ⟨htail, rfl⟩ := ih hitem
          refine ⟨(splitTree_balanced hs).append htail, ?_⟩
          rw [List.append_assoc, splitTree_append hs]
      all_goals exact hplain (by simp [Token.role, hkind]) h

theorem leftOf_of_decoration_read {d : Decoration}
    (h : Decoration.read operator ts = .ok (some (d, rest))) : LeftOf ts rest := by
  unfold Decoration.read at h
  split at h
  · split at h
    · next hsign =>
      split at h
      · cases h
      · cases h
      · next hparameters =>
        split at h
        · next hline =>
          split at h
          · cases h
          · cases h
          · next hitem =>
            cases h
            exact .plain (role_of_isOperator hsign.1) (.plain (Token.role_of_name hsign.2.1)
              (.plain (role_of_isOperator hsign.2.2) ((leftOf_of_splitParameters hparameters).trans
                (.plain (Token.role_of_newline hline) ⟨_, splitItemFrom_append hitem⟩))))
        · cases h
    · cases h
  · cases h

/-! ## Unit invocations -/

theorem leftOf_of_unitInvocation_read {invocation : UnitInvocation}
    (h : UnitInvocation.read operator ts = some (invocation, rest)) : LeftOf ts rest := by
  unfold UnitInvocation.read at h
  split at h
  · next op bracket name us =>
    split at h
    · next hhead =>
      have hparameters : LeftOf us ((splitGroup "(" us).getD ([], us)).2 := by
        cases hgroup : splitGroup "(" us with
        | none => exact .refl us
        | some found => exact leftOf_of_splitGroup hgroup
      simp only at h
      split at h
      · cases h
      · next close behind hclose =>
        rw [hclose] at hparameters
        split at h
        · next hbracket =>
          cases h
          have hinner := LeftOf.plain (Token.role_of_name hhead.2.2) hparameters
          exact .plain (role_of_isOperator hhead.1)
            ((hinner.tree (role_of_isOpener_bracket hhead.2.1)
              (closes_bracket_iff.2 hbracket)).trans (leftOf_skipNewline _))
        · cases h
    · cases h
  · cases h

/-- An invocation is longer than its parameters. -/
theorem length_lt_of_unitInvocation_read {invocation : UnitInvocation}
    (h : UnitInvocation.read operator ts = some (invocation, rest)) :
    invocation.parameters.length + rest.length < ts.length := by
  unfold UnitInvocation.read at h
  split at h
  · next op bracket name us =>
    split at h
    · have hgroup : ((splitGroup "(" us).getD ([], us)).1.length +
          ((splitGroup "(" us).getD ([], us)).2.length ≤ us.length := by
        cases hgroup : splitGroup "(" us with
        | none => simp
        | some found =>
          obtain ⟨opener, closer, -, -, -, rfl⟩ :=
            (splitGroup_eq_some_iff role_of_isOpener_paren closes_paren_iff).1 hgroup
          simp only [Option.getD_some, List.length_cons, List.length_append]
          omega
      simp only at h
      split at h
      · cases h
      · next close behind hclose =>
        rw [hclose] at hgroup
        have hnewline := (leftOf_skipNewline behind).take_drop.2.2
        split at h
        · cases h
          simp only [List.length_cons] at hgroup ⊢
          omega
        · cases h
    · cases h
  · cases h

theorem splitDocstring_append (ts : List Token) :
    (splitDocstring ts).1 ++ (splitDocstring ts).2 = ts := by
  unfold splitDocstring
  split
  · split <;> rfl
  · rfl

/-- Does the step leave the rest of the unit as it is? -/
def UnitStep.KeepsRest (step : UnitStep) : Prop :=
  ∀ parameters us w r w', step parameters us w = .ok r w' → r = none

theorem keepsRest_imports (importer : Importer) : (UnitMacro.imports importer).step.KeepsRest := by
  intro parameters us w r w' h
  rw [UnitMacro.step] at h
  obtain ⟨_, w₁, -, h⟩ := Expansion.bind_eq_ok.1 h
  exact (Expansion.pure_eq_ok.1 h).1.symm

section unitTop

variable {find? : String → Option UnitStep} {out : List Token}

/-- Where no macro touches the rest, the invocations are taken out and nothing else happens. -/
theorem leftOf_of_runInvocations
    (hkeep : ∀ name step, find? name = some step → step.KeepsRest) {fuel : Nat}
    (h : runInvocations operator find? fuel ts w = .ok (some out) w') : LeftOf ts out := by
  induction fuel generalizing ts w out with
  | zero => cases h
  | succ fuel ih =>
    rw [runInvocations] at h
    cases hread : UnitInvocation.read operator ts with
    | none =>
      rw [hread] at h
      cases h
    | some found =>
      obtain ⟨invocation, rest⟩ := found
      simp only [hread] at h
      cases hstep : find? invocation.name.text with
      | none =>
        simp only [hstep] at h
        exact absurd h Expansion.fail_ne_ok
      | some step =>
        simp only [hstep] at h
        obtain ⟨r, w₁, hr, h⟩ := Expansion.bind_eq_ok.1 h
        obtain ⟨more, w₂, hmore, h⟩ := Expansion.bind_eq_ok.1 h
        obtain ⟨heq, rfl⟩ := Expansion.pure_eq_ok.1 h
        have hnone := hkeep _ step hstep _ _ _ _ _ hr
        subst hnone
        cases heq
        refine (leftOf_of_unitInvocation_read hread).trans ?_
        cases more with
        | none => exact .refl rest
        | some us => exact ih hmore

theorem balanced_of_runUnitTop (hkeep : ∀ name step, find? name = some step → step.KeepsRest)
    (h : runUnitTop operator find? ts w = .ok (some out) w') (hts : Balanced ts) :
    Balanced out := by
  have hparts := splitDocstring_append ts
  unfold runUnitTop at h
  generalize splitDocstring ts = parts at h hparts
  obtain ⟨docstring, body⟩ := parts
  obtain ⟨found, w₁, hfound, h⟩ := Expansion.bind_eq_ok.1 h
  obtain ⟨heq, rfl⟩ := Expansion.pure_eq_ok.1 h
  obtain ⟨rest, rfl, rfl⟩ := Option.map_eq_some_iff.1 heq
  obtain ⟨taken, htaken, rfl⟩ := leftOf_of_runInvocations hkeep hfound
  subst hparts
  rw [← List.append_assoc] at hts
  exact (htaken.insert_iff docstring rest).1 hts

end unitTop

/-! ## Heads -/

/-- The first `n` tokens are balanced, and no pair of a stream that ends in `ts` has one end among
them and the other elsewhere. -/
def CutsWhole (ts : List Token) (n : Nat) : Prop :=
  n ≤ ts.length ∧ Balanced (ts.take n) ∧ ∀ before p,
    Pairing.ofTokens (before ++ ts) = .ok p → p.KeepsTogether before.length (before.length + n)

theorem LeftOf.cutsWhole (h : LeftOf ts rest) : CutsWhole ts (ts.length - rest.length) := by
  obtain ⟨taken, htaken, rfl⟩ := h
  have hlen : (taken ++ rest).length - rest.length = taken.length := by simp
  rw [hlen]
  refine ⟨by simp, by simpa using htaken, fun before p hp => ?_⟩
  rw [← List.append_assoc] at hp
  exact Pairing.keepsTogether_of_balanced htaken hp

/-- What a declaration, a decorator or a call takes out of a stream is whole. -/
theorem cutsWhole_of_changeHead {e : Expander} {head : HeadMacro} (hmem : head ∈ e.heads)
    {change : HeadChange} (h : head.changeHead apply ts w = .ok (some change) w') :
    CutsWhole ts change.length := by
  simp only [Expander.heads, List.mem_cons, List.not_mem_nil, or_false] at hmem
  rcases hmem with rfl | rfl | rfl
  · rcases declareHead_eq_ok h with ⟨-, hr, -⟩ | ⟨_, _, hread, hr, -⟩
    · cases hr
    · cases hr
      exact (leftOf_of_declaration_read hread).cutsWhole
  · rcases decoratorHead_eq_ok h with ⟨-, hr, -⟩ | ⟨_, _, _, hread, -, hr⟩
    · cases hr
    · cases hr
      exact (leftOf_of_decoration_read hread).cutsWhole
  · rcases callHead_eq_ok h with ⟨hr, -, -⟩ | ⟨_, _, _, _, _, _, _, rfl, hname, hop, hsplit, -, hr⟩
    · cases hr
    · cases hr
      exact (LeftOf.plain (Token.role_of_name hname) (.plain (role_of_isOperator hop)
        (leftOf_of_splitArgument hsplit))).cutsWhole

/-! ## Expansions -/

/-- A splice takes a balanced part out and puts a balanced part in. -/
theorem balanced_splice {e : Expander} {lineStart : Bool} {before : List Token}
    {change : HeadChange} (h : e.attempt lineStart ts w = .ok (some change) w')
    (hin : Balanced change.tokens) (hts : Balanced (before ++ ts)) :
    Balanced (before ++ change.tokens ++ ts.drop change.length) := by
  obtain ⟨head, hmem, -, w₁, hhead⟩ := firstChange_eq_some h
  exact (cutsWhole_of_changeHead hmem hhead).2.1.replace_take hin hts

/-- Are all macros of a unit imports? -/
def Expander.ImportsOnly (e : Expander) : Prop :=
  ∀ name m, e.unitMacros.find? name = some m → ∃ importer, m = .imports importer

theorem Expander.ImportsOnly.withImports {e : Expander} (he : e.ImportsOnly)
    (store : Import.ModuleStore) : (e.withImports store).ImportsOnly := by
  intro name m h
  rw [Expander.withImports, Expander.withUnitMacro, Table.find?_insert] at h
  split at h
  · cases h
    exact ⟨_, rfl⟩
  · exact he name m h

theorem Expander.ImportsOnly.keepsRest {e : Expander} (he : e.ImportsOnly) :
    ∀ name step, e.unitStep? name = some step → step.KeepsRest := by
  intro name step hstep
  obtain ⟨m, hm, rfl⟩ := Option.map_eq_some_iff.1 hstep
  obtain ⟨importer, rfl⟩ := he name m hm
  exact keepsRest_imports importer

/-- An expanded stream is balanced, and so is the stream after each splice; what is taken out,
by the scan or at the top of a unit, is whole. -/
theorem Expander.expand_balanced {e : Expander} (he : e.ImportsOnly) {out : List Token}
    (h : e.expand ts w = .ok out w') :
    (∃ p, Pairing.ofTokens out = .ok p) ∧
      (∃ splices, e.Expands ts w splices out w' ∧ ∀ s ∈ splices, Balanced s.result) ∧
      (∀ head ∈ e.heads, ∀ apply us w₁ change w₂,
        head.changeHead apply us w₁ = .ok (some change) w₂ → CutsWhole us change.length) ∧
      ∀ us invocation rest, UnitInvocation.read e.settings.operator us = some (invocation, rest) →
        us.drop (us.length - rest.length) = rest ∧ CutsWhole us (us.length - rest.length) := by
  obtain ⟨splices, hexp⟩ := expand_eq_ok_iff.1 h
  have ⟨hts, top, w₁, htop, hrun, _⟩ := hexp
  have hstart : Balanced ([].reverse ++ top.getD ts) := by
    cases top with
    | none => exact hts
    | some us => exact balanced_of_runUnitTop he.keepsRest htop hts
  obtain ⟨hout, hall⟩ := hrun.invariant Balanced
    (fun before rest w change w' hattempt hin hstream => balanced_splice hattempt hin hstream) hstart
  refine ⟨ofTokens_ok_iff.2 hout, ⟨splices, hexp, hall⟩, ?_, ?_⟩
  · intro head hmem apply us w₁ change w₂ hhead
    exact cutsWhole_of_changeHead hmem hhead
  · intro us invocation rest hread
    have hleft := leftOf_of_unitInvocation_read hread
    exact ⟨hleft.take_drop.2.1, hleft.cutsWhole⟩

/-! ## A call behind an import -/

/-- The stream `! [ import ( m ) ]`, a newline, and `box ! [ x ]`. -/
def importedCall : List Token :=
  [⟨.operator, "!", {}⟩, ⟨.opener, "[", {}⟩, ⟨.name, "import", {}⟩, ⟨.opener, "(", {}⟩,
    ⟨.name, "m", {}⟩, ⟨.closer, ")", {}⟩, ⟨.closer, "]", {}⟩, ⟨.newline, "\n", {}⟩,
    ⟨.name, "box", {}⟩, ⟨.operator, "!", {}⟩, ⟨.opener, "[", {}⟩, ⟨.name, "x", {}⟩,
    ⟨.closer, "]", {}⟩]

/-- `box` reads a token tree and writes it in parentheses. -/
def boxMacros : Workspace where
  env := (default : Environment).define "box" (.rules ⟨"box", [⟨[.capture "t" .tree {}],
    [.literal ⟨.opener, "(", {}⟩, .hole "t" {}, .literal ⟨.closer, ")", {}⟩], rfl⟩]⟩)

/-- An expander that knows an empty module. -/
def emptyImporter : Expander := Expander.withImports {} (.listed (.ofList [("m", "")]))

/-- What becomes of the stream: `( x )`. -/
def importedCallExpanded : List Token :=
  [⟨.opener, "(", {}⟩, ⟨.name, "x", {}⟩, ⟨.closer, ")", {}⟩]

theorem expand_importedCall :
    ∃ w', emptyImporter.expand importedCall boxMacros = .ok importedCallExpanded w' := by
  obtain ⟨out, w', hexp, hout⟩ := Expansion.exists_ok_of_passes
    (show (emptyImporter.expand importedCall).Passes boxMacros
      (fun out _ => decide (out = importedCallExpanded)) by decide +kernel)
  rw [decide_eq_true_eq] at hout
  exact ⟨w', hout ▸ hexp⟩

theorem importsOnly_emptyImporter : emptyImporter.ImportsOnly := by
  refine Expander.ImportsOnly.withImports ?_ _
  intro name m h
  cases h

theorem expand_balanced_importedCall : emptyImporter.ImportsOnly ∧ ∃ w',
    emptyImporter.expand importedCall boxMacros = .ok importedCallExpanded w' ∧
      (∃ p, Pairing.ofTokens importedCallExpanded = .ok p) ∧
      ∃ splices, emptyImporter.Expands importedCall boxMacros splices importedCallExpanded w' ∧
        ∀ s ∈ splices, Balanced s.result := by
  obtain ⟨w', hexp⟩ := expand_importedCall
  have h := Expander.expand_balanced importsOnly_emptyImporter hexp
  exact ⟨importsOnly_emptyImporter, w', hexp, h.1, h.2.1⟩

end TokenMacros
