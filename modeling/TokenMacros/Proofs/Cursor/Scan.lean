import TokenMacros.Proofs.Cursor.UnitTop
import TokenMacros.Proofs.Expansion.Scan

/-!
# Scanning by cursor

A scan can keep the stream whole and move a cursor through it: it looks back by one token,
hands macros what is left, and puts a splice between the tokens before the cursor and those
behind what goes. No splice takes more tokens than there are, and so nothing has to be cut
off at the end of the stream:

    walkScan apply heads limit 0 0 ts =
      Expansion.within (scan (firstChange apply heads) limit ts)       (walkScan_eq)
-/

namespace TokenMacros

/-! ## Algorithm -/

/-- Does a logical line start at a cursor? -/
def lineStartAt (ts : List Token) : Nat → Walk Bool
  | 0 => return true
  | i + 1 => do
    let t ← tokenAt ts i
    return t.kind == .newline || t.kind == .indent || t.kind == .dedent

/-- Tries macros in order on the tokens behind a cursor. -/
def walkFirstChange (apply : Apply) (lineStart : Bool) (ts : List Token) (pos : Nat) :
    List HeadMacro → WalkStep (Option HeadChange)
  | [] => return none
  | head :: heads => do
    if head.needsLineStart && !lineStart then walkFirstChange apply lineStart ts pos heads
    else
      let pending ← WalkStep.ofWalk (slice ts pos ts.length)
      match ← head.walkHead apply pending with
      | some change => return some change
      | none => walkFirstChange apply lineStart ts pos heads

/-- Scans a stream from a cursor on, behind a number of splices; `none` if there are none at all. -/
def walkScan (apply : Apply) (heads : List HeadMacro) (limit splices pos : Nat)
    (ts : List Token) : WalkStep (Option (List Token)) :=
  if _hpos : pos < ts.length then do
    let lineStart ← WalkStep.ofWalk (lineStartAt ts pos)
    match ← walkFirstChange apply lineStart ts pos heads with
    | none => walkScan apply heads limit splices (pos + 1) ts
    | some change =>
      if _hlimit : limit < splices + 1 then do
        let t ← WalkStep.ofWalk (tokenAt ts pos)
        Expansion.within (.fail (.tooManySplices limit) t.position)
      else do
        Expansion.within (.ofExcept (requireBalanced change.tokens))
        let front ← WalkStep.ofWalk (slice ts 0 pos)
        let behind ← WalkStep.ofWalk (slice ts (pos + change.length) ts.length)
        walkScan apply heads limit (splices + 1) (pos - 1) (front ++ change.tokens ++ behind)
  else return if 0 < splices then some ts else none
termination_by (limit - splices, ts.length - pos)
decreasing_by
  · exact Prod.Lex.right _ (by omega)
  · exact Prod.Lex.left _ _ (by omega)

/-- Scans on from `rest`, which stands behind `before`, and behind a number of splices. -/
def scanFrom (attempt : Attempt) (limit splices : Nat) (before rest : List Token) :
    Expansion (Option (List Token)) := do
  match ← findSplice attempt before rest with
  | none => return if 0 < splices then some (before.reverse ++ rest) else none
  | some s => return some (← resume attempt limit (limit - splices) s)

variable {apply : Apply} {heads : List HeadMacro} {attempt : Attempt} {limit splices : Nat}
  {before ts us : List Token} {t : Token} {change : HeadChange} {w w' : Workspace}

/-! ## Changes at the cursor -/

theorem lineStartAt_eq (before rest : List Token) :
    lineStartAt (before.reverse ++ rest) before.length = .ok (atLineStart before) := by
  cases before with
  | nil => rfl
  | cons t before =>
    have hget : ((t :: before).reverse ++ rest)[before.length]? = some t := by
      simp
    rw [List.length_cons, lineStartAt, tokenAt_of_getElem? hget]
    rfl

theorem drop_reverse_append (before rest : List Token) :
    (before.reverse ++ rest).drop before.length = rest := by
  rw [← List.length_reverse, List.drop_left]

theorem walkFirstChange_eq (apply : Apply) (lineStart : Bool) (before rest : List Token)
    (heads : List HeadMacro) :
    walkFirstChange apply lineStart (before.reverse ++ rest) before.length heads =
      Expansion.within (firstChange apply heads lineStart rest) := by
  have hpending : slice (before.reverse ++ rest) before.length (before.reverse ++ rest).length =
      .ok rest := by
    rw [slice_to_end (by simp), drop_reverse_append]
  induction heads with
  | nil => rfl
  | cons head heads ih =>
    rw [walkFirstChange, firstChange]
    split
    · exact ih
    · rw [hpending, ofWalk_ok, WalkStep.pure_bind, HeadMacro.walkHead_eq, within_bind]
      congr 1
      funext change
      cases change with
      | none => exact ih
      | some change => rfl

/-- Of the tokens that a head is given, no more go than there are. -/
theorem length_le_of_firstChange {lineStart : Bool}
    (h : firstChange apply heads lineStart ts w = .ok (some change) w') :
    change.length ≤ ts.length := by
  obtain ⟨head, -, -, w₁, hhead⟩ := firstChange_eq_some h
  exact HeadMacro.length_le_of_changeHead hhead

/-- What stands behind a change can be cut out. -/
theorem slice_behind_change (before : List Token) (h : change.length ≤ ts.length) :
    slice (before.reverse ++ ts) (before.length + change.length) (before.reverse ++ ts).length =
      .ok (ts.drop change.length) := by
  rw [slice_to_end (by simpa using h), ← List.drop_drop, drop_reverse_append]

/-! ## Steps of the scan -/

/-- At the end of the stream the scan ends. -/
theorem walkScan_end (apply : Apply) (heads : List HeadMacro) (limit splices : Nat)
    (ts : List Token) : walkScan apply heads limit splices ts.length ts =
      pure (if 0 < splices then some ts else none) := by
  rw [walkScan, dif_neg (Nat.lt_irrefl _)]

theorem walkScan_step (apply : Apply) (heads : List HeadMacro) (limit splices : Nat)
    (before us : List Token) (t : Token) :
    walkScan apply heads limit splices before.length (before.reverse ++ t :: us) = (do
      match ← Expansion.within (firstChange apply heads (atLineStart before) (t :: us)) with
      | none => walkScan apply heads limit splices (before.length + 1) (before.reverse ++ t :: us)
      | some change =>
        if limit < splices + 1 then
          Expansion.within (.fail (.tooManySplices limit) t.position)
        else do
          Expansion.within (.ofExcept (requireBalanced change.tokens))
          let behind ← WalkStep.ofWalk (slice (before.reverse ++ t :: us)
            (before.length + change.length) (before.reverse ++ t :: us).length)
          walkScan apply heads limit (splices + 1) (before.length - 1)
            (before.reverse ++ change.tokens ++ behind)) := by
  have hpos : before.length < (before.reverse ++ t :: us).length := by simp
  have hget : (before.reverse ++ t :: us)[before.length]? = some t := by simp
  have hfront : slice (before.reverse ++ t :: us) 0 before.length = .ok before.reverse := by
    have happend : before.reverse ++ t :: us = (before.reverse ++ t :: us).drop 0 := rfl
    have hslice := slice_of_append happend (Nat.zero_le _)
    rwa [Nat.zero_add, List.length_reverse] at hslice
  rw [walkScan, dif_pos hpos, lineStartAt_eq, ofWalk_ok, WalkStep.pure_bind, walkFirstChange_eq]
  congr 1
  funext change
  cases change with
  | none => rfl
  | some change =>
    simp only [tokenAt_of_getElem? hget, hfront, ofWalk_ok, WalkStep.pure_bind]
    split <;> rfl

/-! ## The whole scan -/

theorem scanFrom_nil (attempt : Attempt) (limit splices : Nat) (before : List Token) :
    scanFrom attempt limit splices before [] =
      pure (if 0 < splices then some before.reverse else none) := by
  rw [scanFrom, findSplice, List.append_nil]
  rfl

/-- Behind a splice the scan goes on with one splice more. -/
theorem resume_eq_scanFrom (attempt : Attempt) (hlimit : ¬ limit < splices + 1) (s : Splice) :
    (do return some (← resume attempt limit (limit - splices) s) :
        Expansion (Option (List Token))) = (do
      .ofExcept (requireBalanced s.inserted)
      scanFrom attempt limit (splices + 1) s.passed s.pending) := by
  obtain ⟨left, hleft⟩ : ∃ left, limit - splices = left + 1 := ⟨limit - splices - 1, by omega⟩
  have hnext : limit - (splices + 1) = left := by omega
  rw [hleft, resume, bind_assoc]
  congr 1
  funext _
  rw [scanFrom, hnext, bind_assoc, Splice.passed_append_pending]
  congr 1
  funext found
  cases found <;> rfl

theorem scanFrom_cons (attempt : Attempt) (limit splices : Nat) (before us : List Token)
    (t : Token) : scanFrom attempt limit splices before (t :: us) = (do
      match ← attempt (atLineStart before) (t :: us) with
      | none => scanFrom attempt limit splices (t :: before) us
      | some change =>
        if limit < splices + 1 then .fail (.tooManySplices limit) t.position
        else do
          .ofExcept (requireBalanced change.tokens)
          scanFrom attempt limit (splices + 1) (change.splice before (t :: us)).passed
            (change.splice before (t :: us)).pending) := by
  rw [scanFrom, findSplice, bind_assoc]
  congr 1
  funext found
  cases found with
  | none =>
    have hwhole : (t :: before).reverse ++ us = before.reverse ++ t :: us := by simp
    rw [scanFrom, hwhole]
  | some change =>
    show (do return some (← resume attempt limit (limit - splices)
      (change.splice before (t :: us))) : Expansion (Option (List Token))) = _
    simp only
    split
    · next hlimit =>
      rw [Nat.sub_eq_zero_of_le (Nat.le_of_lt_succ hlimit)]
      rfl
    · next hlimit => exact resume_eq_scanFrom attempt hlimit _

/-- From every place in a stream the scan goes on as it does when the tokens before it are put
away. -/
theorem walkScan_eq_scanFrom (apply : Apply) (heads : List HeadMacro) (limit splices : Nat)
    (before rest : List Token) (w : Workspace) :
    walkScan apply heads limit splices before.length (before.reverse ++ rest) w =
      Expansion.within (scanFrom (firstChange apply heads) limit splices before rest) w := by
  -- a splice leaves one splice less, and a token that is passed over one token less
  induction hleft : limit - splices using Nat.strongRecOn
    generalizing splices before rest w with
  | ind left ih =>
    induction rest generalizing before w with
    | nil =>
      have hend := walkScan_end apply heads limit splices before.reverse
      rw [List.length_reverse] at hend
      rw [List.append_nil, hend, scanFrom_nil, within_pure]
    | cons t us hpass =>
      rw [walkScan_step, scanFrom_cons, within_bind]
      refine WalkStep.bind_congr rfl fun found w₁ hfound => ?_
      cases found with
      | none =>
        have hnext := hpass (t :: before) w₁
        rwa [List.length_cons, List.reverse_cons, List.append_assoc] at hnext
      | some change =>
        have hlength := length_le_of_firstChange (ok_of_within_eq_ok hfound)
        simp only
        split
        · rfl
        · next hlimit =>
          rw [within_bind]
          refine WalkStep.bind_congr rfl fun _ w₂ _ => ?_
          have hnext := ih (limit - (splices + 1)) (by omega) (splices + 1)
            (change.splice before (t :: us)).passed (change.splice before (t :: us)).pending w₂ rfl
          rw [Splice.passed_append_pending] at hnext
          rw [slice_behind_change before hlength, ofWalk_ok, WalkStep.pure_bind,
            ← List.length_tail]
          exact hnext

/-- A scan with a cursor is a scan. -/
theorem walkScan_eq (apply : Apply) (heads : List HeadMacro) (limit : Nat) (ts : List Token) :
    walkScan apply heads limit 0 0 ts =
      Expansion.within (scan (firstChange apply heads) limit ts) := by
  funext w
  exact walkScan_eq_scanFrom apply heads limit 0 [] ts w

/-! ## Staying within the stream -/

/-- Whatever walks through a stream with a cursor gives what a reader gives that cuts the parts off,
and so asks for no token and no slice outside of the stream. Repetitions end by themselves, and no
head takes more than there is. -/
theorem walks_stay_within (apply : Apply) (heads : List HeadMacro) (operator : String)
    (find? : String → Option UnitStep) (limit : Nat) (ts : List Token) :
    -- patterns, the loops of their repetitions, and declarations, from every place
    (∀ start, start ≤ ts.length →
      (∀ p : Pattern, p.walk ts start = .ok (p.readAt ts start)) ∧
      (∀ (inner : Pattern) (separator : Option Token) (q : Quantifier), ∃ items stop,
        walkRounds (Pattern.walk ts inner) separator q.bound? ts (ts.length - start + 2) 0 start =
          .ok (items, stop) ∧
        start ≤ stop ∧ stop ≤ ts.length ∧ items.length ≤ stop - start + 1) ∧
      Declaration.walkAt operator ts start = Walk.within (Declaration.readAt operator ts start)) ∧
    -- the parsers of patterns and templates
    Pattern.parseAt (ts.length + 1) ts 0 = Walk.within (Pattern.ofTokens ts) ∧
    Template.parseAt (ts.length + 1) ts 0 = Walk.within (Template.ofTokens ts) ∧
    -- heads, and what they take
    (∀ head : HeadMacro, head.walkHead apply ts = Expansion.within (head.changeHead apply ts) ∧
      ∀ w change w', head.walkHead apply ts w = .ok (some change) w' →
        change.length ≤ ts.length ∧ ((∀ set, head ≠ .rules set) → 3 ≤ change.length)) ∧
    -- invocations at the top of a unit, whatever their macros do
    (∀ fuel w w', walkUnitTop operator find? fuel ts w ≠ .error .outside w') ∧
    (∀ macros : Table UnitMacro,
      walkUnitTop operator (fun name => (macros.find? name).map UnitMacro.step) (ts.length + 1) ts =
        Expansion.within
          (runUnitTop operator (fun name => (macros.find? name).map UnitMacro.step) ts)) ∧
    -- the scan
    walkScan apply heads limit 0 0 ts =
      Expansion.within (scan (firstChange apply heads) limit ts) := by
  refine ⟨fun start hstart => ⟨fun p => p.walk_eq hstart, fun inner separator q =>
    inner.exists_walkRounds separator q hstart, Declaration.walkAt_eq operator hstart⟩,
    Pattern.parseAt_eq ts, Template.parseAt_eq ts, fun head => ⟨head.walkHead_eq apply ts, ?_⟩,
    fun fuel w w' => walkUnitTop_ne_outside operator find? fuel ts w w', fun macros => ?_,
    walkScan_eq apply heads limit ts⟩
  · intro w change w' hwalk
    rw [HeadMacro.walkHead_eq] at hwalk
    have hchange := ok_of_within_eq_ok hwalk
    exact ⟨HeadMacro.length_le_of_changeHead hchange,
      fun hhead => HeadMacro.three_le_of_changeHead hhead hchange⟩
  · refine walkUnitTop_eq (fun name step hstep => ?_) (Nat.lt_succ_self _)
    obtain ⟨m, -, rfl⟩ := Option.map_eq_some_iff.1 hstep
    exact m.step_keepsLength

/-- `f!(a)` and nothing behind it. -/
def lastCall : List Token :=
  [⟨.name, "f", {}⟩, ⟨.operator, "!", {}⟩, ⟨.opener, "(", {}⟩, ⟨.name, "a", {}⟩, ⟨.closer, ")", {}⟩]

/-- A workspace in which `f` is a macro that drops what it gets. -/
def droppingMacro : Workspace := { env := (default : Environment).define "f" .debug }

theorem walks_stay_within_lastCall :
    (3 ≤ lastCall.length ∧ ∃ captures,
      Pattern.walk lastCall [treesNode "t"] 3 = .ok (some ⟨captures, 4⟩)) ∧
    ∃ change w', (HeadMacro.call "!").walkHead (Macro.runWithin 0) lastCall droppingMacro =
        .ok (some change) w' ∧ (∀ set, HeadMacro.call "!" ≠ .rules set) ∧
      change.length = lastCall.length ∧ change.length ≤ lastCall.length ∧ 3 ≤ change.length := by
  obtain ⟨hplaces, -, -, hheads, -⟩ :=
    walks_stay_within (Macro.runWithin 0) [.call "!"] "!" (fun _ => none) 0 lastCall
  have hstart : 3 ≤ lastCall.length := by decide
  have hchange : (HeadMacro.call "!").walkHead (Macro.runWithin 0) lastCall droppingMacro =
      .ok (some ⟨5, []⟩) _ := rfl
  obtain ⟨hle, hthree⟩ := (hheads (.call "!")).2 _ _ _ hchange
  exact ⟨⟨hstart, _, (hplaces 3 hstart).1 [treesNode "t"]⟩, _, _, hchange, nofun, rfl, hle,
    hthree nofun⟩

end TokenMacros
