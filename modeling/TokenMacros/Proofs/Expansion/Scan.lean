import TokenMacros.Expansion.Scan
import TokenMacros.Proofs.Expansion.Step
import TokenMacros.Proofs.Token.Balance

/-!
# Runs of a scan

A `ScanRun` tells step by step what a scan does when it succeeds, and lists the
splices that it makes, whatever their number.

    scan attempt limit ts w = .ok (some out) w' ↔ ∃ splices,
      ScanRun attempt [] ts w splices out w' ∧ splices ≠ [] ∧ splices.length ≤ limit
                                                           (scan_eq_some_iff)
    scan attempt limit ts w = .ok none w' ↔ ScanRun attempt [] ts w [] ts w'
                                                           (scan_eq_none_iff)
-/

namespace TokenMacros

/-- The splice that a change of the head of `rest` makes behind `before`. -/
def HeadChange.splice (change : HeadChange) (before rest : List Token) : Splice :=
  ⟨before, change.tokens, rest.drop change.length, firstPosition rest⟩

/-- What a scan does from `rest` on, which stands behind `before`: the splices it makes, and the
stream and the workspace in the end. -/
inductive ScanRun (attempt : Attempt) :
    List Token → List Token → Workspace → List Splice → List Token → Workspace → Prop
  | done {before : List Token} {w : Workspace} : ScanRun attempt before [] w [] before.reverse w
  | pass {before ts out : List Token} {t : Token} {w w₁ w' : Workspace} {splices : List Splice} :
      attempt (atLineStart before) (t :: ts) w = .ok none w₁ →
      ScanRun attempt (t :: before) ts w₁ splices out w' →
      ScanRun attempt before (t :: ts) w splices out w'
  | splice {before ts out : List Token} {t : Token} {change : HeadChange} {w w₁ w' : Workspace}
      {splices : List Splice} :
      attempt (atLineStart before) (t :: ts) w = .ok (some change) w₁ →
      Balanced change.tokens →
      ScanRun attempt (change.splice before (t :: ts)).passed
        (change.splice before (t :: ts)).pending w₁ splices out w' →
      ScanRun attempt before (t :: ts) w (change.splice before (t :: ts) :: splices) out w'

variable {attempt : Attempt} {before rest ts out : List Token} {w w' : Workspace}
  {s : Splice} {splices : List Splice} {limit left : Nat}

theorem Splice.passed_append_pending (s : Splice) : s.passed.reverse ++ s.pending = s.result := by
  obtain ⟨before, inserted, after, position⟩ := s
  cases before <;> simp [Splice.passed, Splice.pending, Splice.result]

/-- A run without splices leaves the stream as it is. -/
theorem ScanRun.out_eq (h : ScanRun attempt before rest w [] out w') :
    out = before.reverse ++ rest := by
  induction rest generalizing before w with
  | nil =>
    cases h
    exact (List.append_nil _).symm
  | cons t ts ih =>
    cases h with
    | pass _ hrun =>
      rw [ih hrun]
      simp

/-- A run may start with tokens at which nothing changes. -/
theorem ScanRun.pass_append {quiet : List Token}
    (hquiet : ∀ passed t next, quiet = passed ++ t :: next →
      attempt (atLineStart (passed.reverse ++ before)) (t :: next ++ rest) w = .ok none w)
    (hrun : ScanRun attempt (quiet.reverse ++ before) rest w splices out w') :
    ScanRun attempt before (quiet ++ rest) w splices out w' := by
  induction quiet generalizing before with
  | nil => exact hrun
  | cons t quiet ih =>
    refine .pass (hquiet [] t quiet rfl) (ih (fun passed u next hsplit => ?_) ?_)
    · have hhere := hquiet (t :: passed) u next (congrArg (t :: ·) hsplit)
      rwa [List.reverse_cons, List.append_assoc] at hhere
    · rwa [List.reverse_cons, List.append_assoc] at hrun

/-- Where nothing changes at any token, the run leaves the stream as it is. -/
theorem ScanRun.of_unchanged {quiet : List Token}
    (hquiet : ∀ passed t next, quiet = passed ++ t :: next →
      attempt (atLineStart (passed.reverse ++ before)) (t :: next) w = .ok none w) :
    ScanRun attempt before quiet w [] (before.reverse ++ quiet) w := by
  have hdone : ScanRun attempt (quiet.reverse ++ before) [] w []
      (quiet.reverse ++ before).reverse w := .done
  rw [List.reverse_append, List.reverse_reverse] at hdone
  have hrun : ScanRun attempt before (quiet ++ []) w [] (before.reverse ++ quiet) w :=
    hdone.pass_append fun passed t next hsplit => by
      rw [List.append_nil]
      exact hquiet passed t next hsplit
  rwa [List.append_nil] at hrun

/-! ## Searching -/

theorem findSplice_eq_none_iff :
    findSplice attempt before rest w = .ok none w' ↔
      ScanRun attempt before rest w [] (before.reverse ++ rest) w' := by
  induction rest generalizing before w with
  | nil =>
    rw [findSplice, Expansion.pure_eq_ok, List.append_nil]
    constructor
    · rintro ⟨-, rfl⟩
      exact .done
    · intro h
      cases h
      exact ⟨rfl, rfl⟩
  | cons t ts ih =>
    rw [findSplice, Expansion.bind_eq_ok]
    constructor
    · rintro ⟨found, w₁, hattempt, h⟩
      cases found with
      | some change => simp [Expansion.pure_eq_ok] at h
      | none =>
        have hrun := ih.1 h
        rw [List.reverse_cons, List.append_assoc] at hrun
        exact .pass hattempt hrun
    · intro h
      cases h with
      | pass hattempt hrun =>
        refine ⟨none, _, hattempt, ih.2 ?_⟩
        rwa [List.reverse_cons, List.append_assoc]

/-- The splice that is found is the first of the run. -/
theorem scanRun_cons_iff :
    ScanRun attempt before rest w (s :: splices) out w' ↔
      ∃ w₁, findSplice attempt before rest w = .ok (some s) w₁ ∧ Balanced s.inserted ∧
        ScanRun attempt s.passed s.pending w₁ splices out w' := by
  induction rest generalizing before w with
  | nil =>
    constructor
    · intro h
      cases h
    · rintro ⟨w₁, h, -⟩
      simp [findSplice, Expansion.pure_eq_ok] at h
  | cons t ts ih =>
    simp only [findSplice, Expansion.bind_eq_ok]
    constructor
    · intro h
      cases h with
      | pass hattempt hrun =>
        obtain ⟨w₂, hfind, hbalanced, hrest⟩ := ih.1 hrun
        exact ⟨w₂, ⟨none, _, hattempt, hfind⟩, hbalanced, hrest⟩
      | splice hattempt hbalanced hrest =>
        exact ⟨_, ⟨some _, _, hattempt, Expansion.pure_eq_ok.2 ⟨rfl, rfl⟩⟩, hbalanced, hrest⟩
    · rintro ⟨w₂, ⟨found, w₁, hattempt, h⟩, hbalanced, hrest⟩
      cases found with
      | none => exact .pass hattempt (ih.2 ⟨w₂, h, hbalanced, hrest⟩)
      | some change =>
        obtain ⟨hs, rfl⟩ := Expansion.pure_eq_ok.1 h
        cases hs
        exact .splice hattempt hbalanced hrest

/-! ## Splicing -/

theorem resume_eq_ok_iff :
    resume attempt limit left s w = .ok out w' ↔
      Balanced s.inserted ∧ ∃ splices, splices.length < left ∧
        ScanRun attempt s.passed s.pending w splices out w' := by
  induction left generalizing s w with
  | zero => simp [resume, Expansion.fail_ne_ok]
  | succ left ih =>
    simp only [resume, Expansion.bind_eq_ok, Expansion.ofExcept_eq_ok]
    constructor
    · rintro ⟨_, _, ⟨hbalanced, rfl⟩, found, w₁, hfind, h⟩
      refine ⟨requireBalanced_eq_ok_iff.1 hbalanced, ?_⟩
      cases found with
      | none =>
        obtain ⟨rfl, rfl⟩ := Expansion.pure_eq_ok.1 h
        rw [findSplice_eq_none_iff, Splice.passed_append_pending] at hfind
        exact ⟨[], Nat.succ_pos left, hfind⟩
      | some next =>
        obtain ⟨hnext, splices, hlen, hrun⟩ := ih.1 h
        exact ⟨next :: splices, Nat.succ_lt_succ hlen,
          scanRun_cons_iff.2 ⟨w₁, hfind, hnext, hrun⟩⟩
    · rintro ⟨hbalanced, splices, hlen, hrun⟩
      refine ⟨(), w, ⟨requireBalanced_eq_ok_iff.2 hbalanced, rfl⟩, ?_⟩
      cases splices with
      | nil =>
        have hout := hrun.out_eq
        rw [hout, ← findSplice_eq_none_iff] at hrun
        rw [Splice.passed_append_pending] at hout
        exact ⟨none, w', hrun, Expansion.pure_eq_ok.2 ⟨hout.symm, rfl⟩⟩
      | cons next splices =>
        obtain ⟨w₁, hfind, hnext, hrest⟩ := scanRun_cons_iff.1 hrun
        exact ⟨some next, w₁, hfind, ih.2 ⟨hnext, splices, Nat.lt_of_succ_lt_succ hlen, hrest⟩⟩

/-! ## Scanning -/

theorem scan_eq_none_iff :
    scan attempt limit ts w = .ok none w' ↔ ScanRun attempt [] ts w [] ts w' := by
  rw [scan, Expansion.bind_eq_ok]
  constructor
  · rintro ⟨found, w₁, hfind, h⟩
    cases found with
    | none =>
      obtain ⟨-, rfl⟩ := Expansion.pure_eq_ok.1 h
      exact findSplice_eq_none_iff.1 hfind
    | some s =>
      obtain ⟨out, w₂, -, h⟩ := Expansion.bind_eq_ok.1 h
      cases (Expansion.pure_eq_ok.1 h).1
  · intro hrun
    exact ⟨none, w', findSplice_eq_none_iff.2 hrun, rfl⟩

theorem scan_eq_some_iff :
    scan attempt limit ts w = .ok (some out) w' ↔
      ∃ splices, ScanRun attempt [] ts w splices out w' ∧ splices ≠ [] ∧
        splices.length ≤ limit := by
  rw [scan, Expansion.bind_eq_ok]
  constructor
  · rintro ⟨found, w₁, hfind, h⟩
    cases found with
    | none => cases (Expansion.pure_eq_ok.1 h).1
    | some s =>
      obtain ⟨out', w₂, hresume, h⟩ := Expansion.bind_eq_ok.1 h
      obtain ⟨hout, rfl⟩ := Expansion.pure_eq_ok.1 h
      cases hout
      obtain ⟨hbalanced, splices, hlen, hrun⟩ := resume_eq_ok_iff.1 hresume
      exact ⟨s :: splices, scanRun_cons_iff.2 ⟨w₁, hfind, hbalanced, hrun⟩, by simp, hlen⟩
  · rintro ⟨splices, hrun, hne, hlen⟩
    cases splices with
    | nil => exact absurd rfl hne
    | cons s splices =>
      obtain ⟨w₁, hfind, hbalanced, hrest⟩ := scanRun_cons_iff.1 hrun
      exact ⟨some s, w₁, hfind, Expansion.bind_eq_ok.2
        ⟨out, w', resume_eq_ok_iff.2 ⟨hbalanced, splices, hlen, hrest⟩, rfl⟩⟩

/-- The streams that a scan may end with are those of the runs that keep the limit. -/
theorem exists_scan_iff :
    (∃ found, scan attempt limit ts w = .ok found w' ∧ found.getD ts = out) ↔
      ∃ splices, ScanRun attempt [] ts w splices out w' ∧ splices.length ≤ limit := by
  constructor
  · rintro ⟨found, h, rfl⟩
    cases found with
    | none => exact ⟨[], scan_eq_none_iff.1 h, Nat.zero_le limit⟩
    | some out =>
      obtain ⟨splices, hrun, -, hlen⟩ := scan_eq_some_iff.1 h
      exact ⟨splices, hrun, hlen⟩
  · rintro ⟨splices, hrun, hlen⟩
    cases splices with
    | nil =>
      have hout : out = ts := hrun.out_eq
      subst hout
      exact ⟨none, scan_eq_none_iff.2 hrun, rfl⟩
    | cons s splices => exact ⟨some out, scan_eq_some_iff.2 ⟨_, hrun, by simp, hlen⟩, rfl⟩

/-! ## Running out of splices -/

/-- With no more splices left than the run has made, the scan fails. -/
theorem resume_eq_tooManySplices (hbalanced : Balanced s.inserted)
    (hrun : ScanRun attempt s.passed s.pending w splices out w') (hlen : left ≤ splices.length) :
    ∃ position w₁, resume attempt limit left s w = .error ⟨.tooManySplices limit, position⟩ w₁ := by
  induction left generalizing s w splices with
  | zero => exact ⟨s.position, w, rfl⟩
  | succ left ih =>
    obtain ⟨next, splices, rfl⟩ := List.exists_cons_of_length_pos (Nat.zero_lt_of_lt hlen)
    obtain ⟨w₁, hfind, hnext, hrest⟩ := scanRun_cons_iff.1 hrun
    obtain ⟨position, w₂, hresume⟩ := ih hnext hrest (Nat.le_of_succ_le_succ hlen)
    refine ⟨position, w₂, ?_⟩
    have hcheck : Expansion.ofExcept (requireBalanced s.inserted) w = .ok () w :=
      Expansion.ofExcept_eq_ok.2 ⟨requireBalanced_eq_ok_iff.2 hbalanced, rfl⟩
    rw [resume, Expansion.bind_of_ok hcheck, Expansion.bind_of_ok hfind]
    exact hresume

/-- A scan fails on a stream that it runs through with more splices than its limit. -/
theorem scan_eq_tooManySplices (hrun : ScanRun attempt [] ts w splices out w')
    (hlen : limit < splices.length) :
    ∃ position w₁, scan attempt limit ts w = .error ⟨.tooManySplices limit, position⟩ w₁ := by
  obtain ⟨s, splices, rfl⟩ := List.exists_cons_of_length_pos (Nat.zero_lt_of_lt hlen)
  obtain ⟨w₁, hfind, hbalanced, hrest⟩ := scanRun_cons_iff.1 hrun
  obtain ⟨position, w₂, hresume⟩ := resume_eq_tooManySplices hbalanced hrest
    (Nat.le_of_lt_succ hlen)
  refine ⟨position, w₂, ?_⟩
  rw [scan, Expansion.bind_of_ok hfind]
  exact Expansion.bind_of_error hresume

/-! ## Invariants -/

/-- What holds of a stream and is kept by every splice holds of what the scan makes of it, and of
the stream after each splice. -/
theorem ScanRun.invariant (P : List Token → Prop)
    (hsplice : ∀ before rest w change w', attempt (atLineStart before) rest w = .ok (some change) w' →
      Balanced change.tokens → P (before.reverse ++ rest) →
      P (before.reverse ++ change.tokens ++ rest.drop change.length))
    (hrun : ScanRun attempt before rest w splices out w') (h : P (before.reverse ++ rest)) :
    P out ∧ ∀ s ∈ splices, P s.result := by
  induction hrun with
  | done => exact ⟨by simpa using h, by simp⟩
  | pass _ _ ih => exact ih (by simpa using h)
  | @splice before ts _ t change _ _ _ _ hattempt hbalanced _ ih =>
    have hresult : P (change.splice before (t :: ts)).result :=
      hsplice before (t :: ts) _ change _ hattempt hbalanced h
    obtain ⟨hout, hall⟩ := ih (by rwa [Splice.passed_append_pending])
    refine ⟨hout, fun s hs => ?_⟩
    rcases List.mem_cons.1 hs with rfl | hs
    · exact hresult
    · exact hall s hs

end TokenMacros
