import TokenMacros.Expander
import TokenMacros.Proofs.Expansion.Balance
import TokenMacros.Proofs.Position.Agree

/-!
# Positions never influence expansion

Streams and environments that agree up to positions expand to streams and environments
that agree, with the same texts logged, or fail with causes that agree
(`Expander.expand_agree`). The modules of a store are the same for both.
-/

namespace TokenMacros

variable {ts us : List Token}

/-! ## Data that agree -/

theorem getD_agree {o o' : Option (List Token)} (ho : bare o = bare o')
    (hts : bare ts = bare us) : bare (o.getD ts) = bare (o'.getD us) := by
  rcases option_of_agree ho with ⟨rfl, rfl⟩ | ⟨out, out', rfl, rfl, hout⟩
  · exact hts
  · exact hout

theorem length_agree (h : bare ts = bare us) : ts.length = us.length :=
  Placed.eq_of_agree length_bare h

theorem text_agree {t u : Token} (h : bare t = bare u) : t.text = u.text :=
  Placed.eq_of_agree text_bare h

theorem print_agree (h : bare ts = bare us) : print ts = print us :=
  Placed.eq_of_agree print_bare h

theorem eq_nil_of_agree (h : bare ([] : List Token) = bare us) : us = [] := by
  cases us with
  | nil => rfl
  | cons u us => cases h

theorem exists_cons_of_agree {t : Token} (h : bare (t :: ts) = bare us) :
    ∃ u us', us = u :: us' ∧ bare t = bare u ∧ bare ts = bare us' := by
  cases us with
  | nil => cases h
  | cons u us' =>
    obtain ⟨htoken, hrest⟩ := List.cons.inj h
    exact ⟨u, us', rfl, htoken, hrest⟩

theorem headChange_agree {n n' : Nat} (hn : n = n') (hts : bare ts = bare us) :
    bare (some (HeadChange.mk n ts)) = bare (some (HeadChange.mk n' us)) := by
  subst hn
  exact congrArg (fun tokens => some (HeadChange.mk n tokens)) hts

theorem append_agree {ts' us' : List Token} (h : bare ts = bare us) (h' : bare ts' = bare us') :
    bare (ts ++ ts') = bare (us ++ us') := by
  rw [bare_append, h, h', bare_append]

/-! ## Changing heads -/

section apply

variable {apply : Apply}
  (happly : ∀ m m' ts us, bare m = bare m' → bare ts = bare us → (apply m ts).Agree (apply m' us))

include happly

theorem agree_invoke {name name' : Token} {argument argument' : List Token}
    (hname : bare name = bare name') (hargument : bare argument = bare argument') :
    (invoke apply name argument).Agree (invoke apply name' argument') := by
  refine Expansion.agree_environment fun e e' he => ?_
  rw [← text_agree hname, print_agree hargument]
  rcases option_of_agree (he.find? name.text) with ⟨hm, hm'⟩ | ⟨m, m', hm, hm', hmm'⟩
  · rw [hm, hm']
    exact Expansion.agree_fail rfl _ _
  · rw [hm, hm']
    exact (happly m m' argument argument' hmm' hargument).bind_option
      (Expansion.agree_fail rfl _ _) fun _ _ hout => Expansion.agree_pure hout

theorem agree_callHead (operator : String) (hts : bare ts = bare us) :
    (callHead apply operator ts).Agree (callHead apply operator us) := by
  match ts, hts with
  | [], hts =>
    rw [eq_nil_of_agree hts]
    exact Expansion.agree_pure rfl
  | [name], hts =>
    obtain ⟨name', us, rfl, -, hus⟩ := exists_cons_of_agree hts
    rw [eq_nil_of_agree hus]
    exact Expansion.agree_pure rfl
  | name :: op :: ts, hts =>
    obtain ⟨name', _, rfl, hname, hts⟩ := exists_cons_of_agree hts
    obtain ⟨op', us, rfl, hop, hts⟩ := exists_cons_of_agree hts
    have hkind : name.kind = name'.kind := Placed.eq_of_agree kind_bare hname
    have hoperator : op.isOperator operator = op'.isOperator operator :=
      Placed.eq_of_agree (f := fun t => t.isOperator operator)
        (fun t => isOperator_bare t operator) hop
    simp only [callHead, hkind, hoperator]
    split
    · refine (Expansion.agree_ofExcept (Placed.congr splitArgument_bare hts)).bind_option
        (Expansion.agree_pure rfl) ?_
      rintro ⟨⟨argument, block⟩, rest⟩ ⟨⟨argument', block'⟩, rest'⟩ hfound
      obtain ⟨hcall, hrest⟩ := Prod.mk.inj hfound
      obtain ⟨hargument, rfl⟩ := Prod.mk.inj hcall
      refine (agree_invoke happly hname hargument).bind fun out out' hout => ?_
      refine Expansion.agree_pure (headChange_agree ?_ (append_agree hout ?_))
      · rw [length_agree hts, length_agree hrest]
      · cases block <;> rfl
    · exact Expansion.agree_pure rfl

theorem agree_decoratorHead (operator : String) (hts : bare ts = bare us) :
    (decoratorHead apply operator ts).Agree (decoratorHead apply operator us) := by
  refine (Expansion.agree_ofExcept (Placed.congr (decoration_read_bare operator) hts)).bind_option
    (Expansion.agree_pure rfl) ?_
  rintro ⟨d, rest⟩ ⟨d', rest'⟩ hfound
  obtain ⟨hd, hrest⟩ := Prod.mk.inj hfound
  have hitem : bare d.item = bare d'.item := congrArg Decoration.item hd
  refine (agree_invoke happly (congrArg Decoration.name hd)
    (append_agree (congrArg Decoration.parameters hd) hitem)).bind fun out out' hout => ?_
  refine Expansion.agree_pure (headChange_agree ?_ (append_agree hout ?_))
  · rw [length_agree hts, length_agree hrest]
  · rw [← itemEnding_bare, hitem, hout, itemEnding_bare]

omit happly in
theorem agree_declareHead (operator : String) (hts : bare ts = bare us) :
    (declareHead operator ts).Agree (declareHead operator us) := by
  refine (Expansion.agree_ofExcept (Placed.congr (declaration_read_bare operator) hts)).bind_option
    (Expansion.agree_pure rfl) ?_
  rintro ⟨d, rest⟩ ⟨d', rest'⟩ hfound
  obtain ⟨hd, hrest⟩ := Prod.mk.inj hfound
  have hname : d.name = d'.name := show (bare d).name = (bare d').name by rw [hd]
  have hrules : bare d.rules = bare d'.rules := congrArg Declaration.rules hd
  simp only [length_agree hts, length_agree hrest, hname]
  refine (Expansion.agree_define d'.name ?_).bind fun _ _ _ => Expansion.agree_pure rfl
  exact congrArg (fun rules => Macro.rules ⟨d'.name, rules⟩) hrules

theorem agree_changeHead {head head' : HeadMacro} (hhead : bare head = bare head')
    (hts : bare ts = bare us) :
    (head.changeHead apply ts).Agree (head'.changeHead apply us) := by
  cases head with
  | rules set =>
    cases head' with
    | rules set' =>
      have hset : bare set = bare set' := HeadMacro.rules.inj hhead
      have hrules : bare set.rules = bare set'.rules := congrArg RuleSet.rules hset
      refine Expansion.agree_ofExcept ?_
      rw [← applyRulesToHead_bare, hrules, hts, applyRulesToHead_bare]
    | _ => cases hhead
  | declaration operator =>
    cases head' with
    | declaration operator' =>
      cases hhead
      exact agree_declareHead operator hts
    | _ => cases hhead
  | decorator operator =>
    cases head' with
    | decorator operator' =>
      cases hhead
      exact agree_decoratorHead happly operator hts
    | _ => cases hhead
  | call operator =>
    cases head' with
    | call operator' =>
      cases hhead
      exact agree_callHead happly operator hts
    | _ => cases hhead

omit happly in
theorem needsLineStart_bare (head : HeadMacro) :
    (bare head).needsLineStart = head.needsLineStart := by
  cases head <;> rfl

theorem agree_firstChange {heads heads' : List HeadMacro} (hheads : bare heads = bare heads')
    (lineStart : Bool) (hts : bare ts = bare us) :
    (firstChange apply heads lineStart ts).Agree (firstChange apply heads' lineStart us) := by
  induction heads generalizing heads' with
  | nil =>
    cases heads' with
    | nil => exact Expansion.agree_pure rfl
    | cons head' heads' => cases hheads
  | cons head heads ih =>
    cases heads' with
    | nil => cases hheads
    | cons head' heads' =>
      obtain ⟨hhead, hrest⟩ := List.cons.inj hheads
      have hneeds : head.needsLineStart = head'.needsLineStart :=
        Placed.eq_of_agree needsLineStart_bare hhead
      unfold firstChange
      rw [hneeds]
      split
      · exact ih hrest
      · exact (agree_changeHead happly hhead hts).bind_option (ih hrest)
          fun _ _ hchange => Expansion.agree_pure (congrArg some hchange)

end apply

/-! ## Scanning -/

instance : Placed Splice :=
  ⟨fun s => ⟨bare s.before, bare s.inserted, bare s.after, {}⟩⟩

theorem atLineStart_bare (before : List Token) :
    atLineStart (bare before) = atLineStart before := by
  cases before <;> rfl

theorem passed_bare (s : Splice) : (bare s).passed = bare s.passed := List.map_tail.symm

theorem pending_bare (s : Splice) : (bare s).pending = bare s.pending := by
  obtain ⟨before, inserted, after, position⟩ := s
  have hhead : (bare before).head?.toList = bare before.head?.toList := by
    cases before <;> rfl
  simp only [Splice.pending, bare_append, ← hhead]
  rfl

theorem result_bare (s : Splice) : (bare s).result = bare s.result := by
  have hreverse : (bare s.before).reverse = bare s.before.reverse := List.map_reverse.symm
  simp only [Splice.result, bare_append, ← hreverse]
  rfl

section scan

variable {attempt attempt' : Attempt} (hattempt : ∀ lineStart ts us, bare ts = bare us →
  (attempt lineStart ts).Agree (attempt' lineStart us))

include hattempt

theorem agree_findSplice {before before' rest rest' : List Token}
    (hbefore : bare before = bare before') (hrest : bare rest = bare rest') :
    (findSplice attempt before rest).Agree (findSplice attempt' before' rest') := by
  induction rest generalizing before before' rest' with
  | nil =>
    rw [eq_nil_of_agree hrest]
    exact Expansion.agree_pure rfl
  | cons t ts ih =>
    obtain ⟨u, us, rfl, htoken, hts⟩ := exists_cons_of_agree hrest
    have hstart : atLineStart before = atLineStart before' :=
      Placed.eq_of_agree atLineStart_bare hbefore
    unfold findSplice
    rw [hstart]
    refine (hattempt _ _ _ hrest).bind_option (ih (congrArg₂ List.cons htoken hbefore) hts) ?_
    intro head head' hhead
    have hlength : head.length = head'.length :=
      show (bare head).length = (bare head').length by rw [hhead]
    have htokens : bare head.tokens = bare head'.tokens := congrArg HeadChange.tokens hhead
    have hafter : bare ((t :: ts).drop head.length) = bare ((u :: us).drop head'.length) := by
      rw [← drop_bare, hrest, hlength, drop_bare]
    refine Expansion.agree_pure (congrArg some ?_)
    show Splice.mk (bare before) (bare head.tokens) (bare ((t :: ts).drop head.length)) {} = _
    rw [hbefore, htokens, hafter]
    rfl

theorem agree_resume (limit left : Nat) {s s' : Splice} (hs : bare s = bare s') :
    (resume attempt limit left s).Agree (resume attempt' limit left s') := by
  induction left generalizing s s' with
  | zero => exact Expansion.agree_fail rfl _ _
  | succ left ih =>
    have hinserted : bare s.inserted = bare s'.inserted := congrArg Splice.inserted hs
    refine (Expansion.agree_ofExcept (Placed.congr requireBalanced_bare hinserted)).bind
      fun _ _ _ => ?_
    exact (agree_findSplice hattempt (Placed.congr passed_bare hs)
      (Placed.congr pending_bare hs)).bind_option
        (Expansion.agree_pure (Placed.congr result_bare hs)) fun _ _ hnext => ih hnext

theorem agree_scan (limit : Nat) (hts : bare ts = bare us) :
    (scan attempt limit ts).Agree (scan attempt' limit us) :=
  (agree_findSplice hattempt rfl hts).bind_option (Expansion.agree_pure rfl) fun _ _ hs =>
    (agree_resume hattempt limit limit hs).bind fun _ _ hout =>
      Expansion.agree_pure (congrArg some hout)

end scan

/-! ## Units and imports -/

section unitTop

variable {find? : String → Option UnitStep}
  (hstep : ∀ name step, find? name = some step → ∀ ps qs ts us, bare ps = bare qs →
    bare ts = bare us → (step ps ts).Agree (step qs us))

include hstep

theorem agree_runInvocations (operator : String) (fuel : Nat) (hts : bare ts = bare us) :
    (runInvocations operator find? fuel ts).Agree (runInvocations operator find? fuel us) := by
  induction fuel generalizing ts us with
  | zero => exact Expansion.agree_pure rfl
  | succ fuel ih =>
    have hread : bare (UnitInvocation.read operator ts) = bare (UnitInvocation.read operator us) :=
      Placed.congr (unitInvocation_read_bare operator) hts
    unfold runInvocations
    rcases option_of_agree hread with
      ⟨hnone, hnone'⟩ | ⟨⟨d, rest⟩, ⟨d', rest'⟩, hsome, hsome', hfound⟩
    · simp only [hnone, hnone']
      exact Expansion.agree_pure rfl
    · obtain ⟨hd, hrest⟩ := Prod.mk.inj hfound
      have hname : d.name.text = d'.name.text := text_agree (congrArg UnitInvocation.name hd)
      have hparameters : bare d.parameters = bare d'.parameters :=
        congrArg UnitInvocation.parameters hd
      simp only [hsome, hsome', hname]
      split
      · exact Expansion.agree_fail rfl _ _
      · next step hfind =>
        refine (hstep _ step hfind _ _ _ _ hparameters hrest).bind fun _ _ hchanged => ?_
        have hnext := getD_agree hchanged hrest
        exact (ih hnext).bind fun _ _ hmore =>
          Expansion.agree_pure (congrArg some (getD_agree hmore hnext))

theorem agree_runUnitTop (operator : String) (hts : bare ts = bare us) :
    (runUnitTop operator find? ts).Agree (runUnitTop operator find? us) := by
  have hparts : bare (splitDocstring ts) = bare (splitDocstring us) :=
    Placed.congr splitDocstring_bare hts
  unfold runUnitTop
  generalize splitDocstring ts = parts at hparts ⊢
  generalize splitDocstring us = parts' at hparts ⊢
  obtain ⟨docstring, body⟩ := parts
  obtain ⟨docstring', body'⟩ := parts'
  obtain ⟨hdocstring, hbody⟩ := Prod.mk.inj hparts
  simp only [length_agree hbody]
  refine (agree_runInvocations hstep operator _ hbody).bind fun r r' hr => ?_
  refine Expansion.agree_pure ?_
  rcases option_of_agree hr with ⟨rfl, rfl⟩ | ⟨rest, rest', rfl, rfl, hrest⟩
  · rfl
  · exact congrArg some (append_agree hdocstring hrest)

end unitTop

theorem agree_importWithin (i : Importer) (fuel : Nat) {ps qs : List Token}
    (hps : bare ps = bare qs) : (i.importWithin fuel ps).Agree (i.importWithin fuel qs) := by
  induction fuel generalizing ps qs with
  | zero => exact Expansion.agree_fail rfl _ _
  | succ fuel ih =>
    have hpath : isModulePath ps = isModulePath qs := Placed.eq_of_agree isModulePath_bare hps
    have htext : modulePathText ps = modulePathText qs :=
      Placed.eq_of_agree modulePathText_bare hps
    unfold Importer.importWithin
    rw [hpath]
    split
    · refine Expansion.agree_environment fun e e' he => ?_
      rw [htext, he.importing]
      split
      · exact Expansion.agree_fail rfl _ _
      · refine Expansion.Agree.betweenModule ?_ _
        split
        · exact Expansion.agree_fail rfl _ _
        · refine (Expansion.agree_ofExcept rfl).bind fun ts us hts => ?_
          refine (agree_runUnitTop ?_ _ hts).bind fun r r' hr => ?_
          · rintro name step hfind ps qs vs vs' hps -
            split at hfind
            · cases hfind
              exact (ih hps).bind fun _ _ _ => Expansion.agree_pure rfl
            · cases hfind
          · exact (agree_scan (fun _ _ _ h => agree_declareHead _ h) _ (getD_agree hr hts)).discard
    · rw [print_agree hps]
      exact Expansion.agree_fail rfl _ _

theorem agree_unitStep (m : UnitMacro) {ps qs : List Token} (hps : bare ps = bare qs)
    (hts : bare ts = bare us) : (m.step ps ts).Agree (m.step qs us) := by
  cases m with
  | host m => exact Expansion.agree_pure (m.bare_change hps hts)
  | imports importer =>
    exact (agree_importWithin importer _ hps).bind fun _ _ _ => Expansion.agree_pure rfl

/-! ## Macros -/

theorem sameTokens_agree {ts' us' : List Token} (h : bare ts = bare us)
    (h' : bare ts' = bare us') : sameTokens ts ts' = sameTokens us us' := by
  rw [← sameTokens_bare, h, h', sameTokens_bare]

theorem agree_settle {step step' : Transform}
    (hstep : ∀ ts us, bare ts = bare us → (step ts).Agree (step' us)) (limit left : Nat)
    (hts : bare ts = bare us) : (settle step limit left ts).Agree (settle step' limit left us) := by
  induction left generalizing ts us with
  | zero =>
    unfold settle
    refine (hstep ts us hts).bind_option (Expansion.agree_pure rfl) fun next next' hnext => ?_
    simp only [sameTokens_agree hnext hts]
    split
    · exact Expansion.agree_pure rfl
    · exact Expansion.agree_fail rfl _ _
  | succ left ih =>
    unfold settle
    refine (hstep ts us hts).bind_option (Expansion.agree_pure rfl) fun next next' hnext => ?_
    simp only [sameTokens_agree hnext hts]
    split
    · exact Expansion.agree_pure rfl
    · exact (ih hnext).bind fun _ _ hmore =>
        Expansion.agree_pure (congrArg some (getD_agree hmore hnext))

theorem agree_andThen {first first' second second' : Transform}
    (hfirst : ∀ ts us, bare ts = bare us → (first ts).Agree (first' us))
    (hsecond : ∀ ts us, bare ts = bare us → (second ts).Agree (second' us))
    (hts : bare ts = bare us) : (andThen first second ts).Agree (andThen first' second' us) :=
  (hfirst ts us hts).bind_option (hsecond ts us hts) fun _ _ hout =>
    (hsecond _ _ hout).bind fun _ _ hmore =>
      Expansion.agree_pure (congrArg some (getD_agree hmore hout))

mutual

/-- Macros that agree up to positions do what agrees to streams that agree, if the macros that
heads name do. -/
theorem Macro.agree_runWith {apply : Apply} (happly : ∀ m m' ts us, Placed.bare m = Placed.bare m' →
    Placed.bare ts = Placed.bare us → (apply m ts).Agree (apply m' us)) :
    ∀ (m m' : Macro), Placed.bare m = Placed.bare m' → ∀ (ts us : List Token),
      Placed.bare ts = Placed.bare us → (m.runWith apply ts).Agree (m'.runWith apply us)
  | .rules set, m', hm, ts, us, hts => by
    cases m' with
    | rules set' =>
      have hset : Placed.bare set = Placed.bare set' := Macro.rules.inj hm
      have hrules : Placed.bare set.rules = Placed.bare set'.rules := congrArg RuleSet.rules hset
      rw [Macro.runWith, Macro.runWith]
      refine Expansion.agree_ofExcept ?_
      rw [← applyRules_bare, hrules, hts, applyRules_bare]
    | _ => cases hm
  | .stringify, m', hm, ts, us, hts => by
    cases m' with
    | stringify =>
      rw [Macro.runWith, Macro.runWith]
      refine Expansion.agree_pure (congrArg (fun t => some [t]) ?_)
      rw [← quote_bare, hts, quote_bare]
    | _ => cases hm
  | .debug, m', hm, ts, us, hts => by
    cases m' with
    | debug =>
      rw [Macro.runWith, Macro.runWith, print_agree hts]
      exact (Expansion.agree_log _).bind fun _ _ _ => Expansion.agree_pure rfl
    | _ => cases hm
  | .fixpoint inner limit, m', hm, ts, us, hts => by
    cases m' with
    | fixpoint inner' limit' =>
      obtain ⟨hinner, rfl⟩ := Macro.fixpoint.inj hm
      rw [Macro.runWith, Macro.runWith]
      exact agree_settle (Macro.agree_runWith happly inner inner' hinner) limit limit hts
    | _ => cases hm
  | .chain macros, m', hm, ts, us, hts => by
    cases m' with
    | chain macros' =>
      rw [Macro.runWith, Macro.runWith]
      exact Macro.agree_runAll happly macros macros' (Macro.chain.inj hm) ts us hts
    | _ => cases hm
  | .heads macros limit, m', hm, ts, us, hts => by
    cases m' with
    | heads macros' limit' =>
      obtain ⟨hmacros, rfl⟩ := Macro.heads.inj hm
      rw [Macro.runWith, Macro.runWith]
      exact agree_scan (fun lineStart _ _ h => agree_firstChange happly hmacros lineStart h)
        limit hts
    | _ => cases hm
  | .unitTop operator macros, m', hm, ts, us, hts => by
    cases m' with
    | unitTop operator' macros' =>
      obtain ⟨rfl, rfl⟩ := Macro.unitTop.inj hm
      rw [Macro.runWith, Macro.runWith]
      refine agree_runUnitTop (fun name step hfind ps qs vs vs' hps hvs => ?_) operator hts
      obtain ⟨m, -, rfl⟩ := Option.map_eq_some_iff.1 hfind
      exact agree_unitStep m hps hvs
    | _ => cases hm

theorem Macro.agree_runAll {apply : Apply} (happly : ∀ m m' ts us, Placed.bare m = Placed.bare m' →
    Placed.bare ts = Placed.bare us → (apply m ts).Agree (apply m' us)) :
    ∀ (ms ms' : List Macro), Macro.bareEach ms = Macro.bareEach ms' → ∀ (ts us : List Token),
      Placed.bare ts = Placed.bare us → (Macro.runAll apply ms ts).Agree (Macro.runAll apply ms' us)
  | [], ms', hms, ts, us, hts => by
    cases ms' with
    | nil =>
      rw [Macro.runAll, Macro.runAll]
      exact Expansion.agree_pure rfl
    | cons m' ms' => cases hms
  | m :: ms, ms', hms, ts, us, hts => by
    cases ms' with
    | nil => cases hms
    | cons m' ms' =>
      obtain ⟨hm, hms⟩ := List.cons.inj hms
      rw [Macro.runAll, Macro.runAll]
      exact agree_andThen (Macro.agree_runWith happly m m' hm)
        (Macro.agree_runAll happly ms ms' hms) hts

end

theorem Macro.agree_runWithin (nesting : Nat) {m m' : Macro} (hm : Placed.bare m = Placed.bare m')
    (hts : Placed.bare ts = Placed.bare us) :
    (m.runWithin nesting ts).Agree (m'.runWithin nesting us) := by
  induction nesting generalizing m m' ts us with
  | zero =>
    exact Macro.agree_runWith (fun _ _ _ _ _ _ => Expansion.agree_fail rfl _ _) m m' hm ts us hts
  | succ nesting ih =>
    exact Macro.agree_runWith (fun _ _ _ _ hm hts => ih hm hts) m m' hm ts us hts

/-! ## Expanders -/

namespace Expander

theorem agree_expand (e : Expander) (hts : bare ts = bare us) :
    (e.expand ts).Agree (e.expand us) :=
  (Expansion.agree_ofExcept (Placed.congr requireBalanced_bare hts)).bind fun _ _ _ =>
    (Macro.agree_runWithin nestingLimit rfl hts).bind fun _ _ hr =>
      Expansion.agree_pure (getD_agree hr hts)

/-- Positions never influence expansion. -/
theorem expand_agree (e : Expander) {ts us : List Token}
    (hts : ts.map Token.bare = us.map Token.bare) {w v : Workspace} (henv : w.env.Agree v.env) :
    ((∃ out out', (e.expand ts).outcome w = .ok out ∧ (e.expand us).outcome v = .ok out' ∧
        out.map Token.bare = out'.map Token.bare) ∨
      ∃ fault fault', (e.expand ts).outcome w = .error fault ∧
        (e.expand us).outcome v = .error fault' ∧ fault.cause.bare = fault'.cause.bare) ∧
    (∃ added, ((e.expand ts).final w).log = w.log ++ added ∧
      ((e.expand us).final v).log = v.log ++ added) ∧
    ((e.expand ts).final w).env.Agree ((e.expand us).final v).env := by
  obtain ⟨hresult, hfinal, hlog⟩ := e.agree_expand hts w v henv
  refine ⟨?_, hlog, hfinal⟩
  rcases result_of_agree hresult with ⟨out, out', hw, hv, hout⟩ | ⟨fault, fault', hw, hv, hfault⟩
  · exact .inl ⟨out, out', hw, hv, hout⟩
  · exact .inr ⟨fault, fault', hw, hv, congrArg Fault.cause hfault⟩

end Expander

/-! ## A call that was moved -/

/-- The stream of a call behind an import, with a column for every token. -/
def movedCall : List Token :=
  importedCall.zipIdx.map fun p => { p.1 with position := ⟨1, (p.2 + 1).toUInt32⟩ }

/-- The macro of the call, declared in another place. -/
def movedMacros : Workspace where
  env := (default : Environment).define "box" (.rules ⟨"box", [⟨[.capture "t" .tree ⟨2, 6⟩],
    [.literal ⟨.opener, "(", ⟨2, 14⟩⟩, .hole "t" ⟨2, 15⟩, .literal ⟨.closer, ")", ⟨2, 17⟩⟩],
    rfl⟩]⟩)

theorem boxMacros_agree : boxMacros.env.Agree movedMacros.env :=
  (Environment.Agree.refl default).define "box" rfl

theorem expand_agree_movedCall : importedCall.map Token.bare = movedCall.map Token.bare ∧
    boxMacros.env.Agree movedMacros.env ∧
    ∃ out, (emptyImporter.expand movedCall).outcome movedMacros = .ok out ∧
      importedCallExpanded.map Token.bare = out.map Token.bare := by
  have hts : importedCall.map Token.bare = movedCall.map Token.bare := by decide
  obtain ⟨w', hexp⟩ := expand_importedCall
  have hresult : (emptyImporter.expand importedCall).outcome boxMacros =
      .ok importedCallExpanded := by
    rw [Expansion.outcome, hexp]
  refine ⟨hts, boxMacros_agree, ?_⟩
  rcases (emptyImporter.expand_agree hts boxMacros_agree).1 with
    ⟨out, out', hout, hout', hbare⟩ | ⟨fault, _, hfault, -⟩
  · rw [hresult] at hout
    cases hout
    exact ⟨out', hout', hbare⟩
  · rw [hresult] at hfault
    cases hfault

end TokenMacros
