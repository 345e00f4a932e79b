import TokenMacros.Proofs.Expansion.Heads
import TokenMacros.Proofs.Expansion.Stages

/-!
# What expansion leaves behind

No declaration is left in an expanded stream. A call may be left: a splice goes on
one token before it, so one that puts an argument behind a name and operator that
the scan has passed makes a call that is never looked at. Nothing else leaves one:

    e.expand ts w = .ok out w' →
      (∀ i, startsDeclaration operator (out.drop i) = false) ∧
      ∃ splices, e.Expands ts w splices out w' ∧
        ((∃ i, startsCall operator (out.drop i) = true) ↔
          ∃ s ∈ splices, s.CompletesCall operator)          (Expander.exists_call_iff)
-/

namespace TokenMacros

/-- Does an argument stand at the head of a stream: an opening bracket, or a colon and a block? -/
def startsArgument : List Token → Bool
  | [] => false
  | t :: ts => t.isOpener "(" || t.isOpener "[" || t.isOpener "\x7b" ||
      (t.isOperator ":" && ts.head?.any (·.kind == .indent))

/-- Does a call stand at the head of a stream: a name, the operator and an argument? -/
def startsCall (operator : String) : List Token → Bool
  | name :: op :: ts => name.kind == .name && op.isOperator operator && startsArgument ts
  | _ => false

/-- Does a declaration stand at the head of a stream: its keyword and the operator? -/
def startsDeclaration (operator : String) : List Token → Bool
  | keyword :: op :: _ => keyword.isWord "macro_rules" && op.isOperator operator
  | _ => false

/-- The stream from the token on that stands `k` tokens before `rest`. -/
def behind (before rest : List Token) (k : Nat) : List Token := (before.take k).reverse ++ rest

/-- Does the splice put an argument behind a name and operator that the scan has passed? They stand
directly before it, or before the colon of a block there. -/
def Splice.CompletesCall (operator : String) (s : Splice) : Prop :=
  ∃ k, (k = 2 ∨ k = 3) ∧ k ≤ s.before.length ∧
    startsCall operator (behind s.before (s.inserted ++ s.after) k) = true

/-! ## Heads -/

variable {operator : String} {apply : Apply} {w w' : Workspace}

theorem splitArgument_eq_none {ts : List Token} (h : splitArgument ts = .ok none) :
    startsArgument ts = false := by
  unfold splitArgument at h
  split at h
  · rfl
  · next t us =>
    split at h
    · obtain ⟨p, -, hp⟩ := map_eq_ok_iff.1 h
      cases hp
    · next hbracket =>
      split at h
      · obtain ⟨p, -, hp⟩ := map_eq_ok_iff.1 h
        cases hp
      · next hblock => simp_all [startsArgument]

theorem startsCall_eq_false_of_callHead {ts : List Token}
    (h : callHead apply operator ts w = .ok none w') : startsCall operator ts = false := by
  rcases callHead_eq_ok h with ⟨-, -, hnone⟩ | ⟨_, _, _, _, _, _, _, -, -, -, -, -, hr⟩
  · unfold startsCall
    split
    · next name op us =>
      rw [Bool.eq_false_iff]
      intro hcall
      simp only [Bool.and_eq_true, beq_iff_eq] at hcall
      rw [splitArgument_eq_none (hnone name op us rfl hcall.1.1 hcall.1.2)] at hcall
      cases hcall.2
    · rfl
  · cases hr

theorem startsDeclaration_eq_false_of_read {ts : List Token}
    (h : Declaration.read operator ts = .ok none) : startsDeclaration operator ts = false := by
  unfold Declaration.read at h
  split at h
  · next keyword op us =>
    split at h
    · split at h
      · cases h
      · split at h
        · cases h
        · obtain ⟨rules, -, hnone⟩ := map_eq_ok_iff.1 h
          cases hnone
    · next hdecl => simpa [startsDeclaration] using hdecl
  · next hshort =>
    unfold startsDeclaration
    split
    · next keyword op us => exact absurd rfl (hshort keyword op us)
    · rfl

theorem kind_of_declaration_read {t : Token} {ts rest : List Token} {d : Declaration}
    (h : Declaration.read operator (t :: ts) = .ok (some (d, rest))) : t.kind = .name := by
  unfold Declaration.read at h
  split at h
  · next heq =>
    cases heq
    split at h
    · next hdecl => exact (Token.isWord_iff.1 hdecl.1).1
    · cases h
  · cases h

theorem isOperator_of_decoration_read {t : Token} {ts rest : List Token} {d : Decoration}
    (h : Decoration.read operator (t :: ts) = .ok (some (d, rest))) : t.isOperator "@" = true := by
  unfold Decoration.read at h
  split at h
  · next heq =>
    cases heq
    split at h
    · next hsign => exact hsign.1
    · cases h
  · cases h

section attempt

variable {e : Expander} {lineStart : Bool} {t : Token} {ts : List Token}

/-- Where the scan passes a token, neither a declaration nor a call starts. -/
theorem passed_clear (h : e.attempt lineStart ts w = .ok none w') :
    startsDeclaration e.settings.operator ts = false ∧
      startsCall e.settings.operator ts = false := by
  constructor
  · obtain ⟨w₁, w₂, hhead⟩ := firstChange_eq_none h (.declaration e.settings.operator)
      (by simp [Expander.heads]) (by simp [HeadMacro.needsLineStart])
    rcases declareHead_eq_ok hhead with ⟨hread, -⟩ | ⟨_, _, -, hr, -⟩
    · exact startsDeclaration_eq_false_of_read hread
    · cases hr
  · obtain ⟨w₁, w₂, hhead⟩ := firstChange_eq_none h (.call e.settings.operator)
      (by simp [Expander.heads]) (by simp [HeadMacro.needsLineStart])
    exact startsCall_eq_false_of_callHead hhead

/-- What the scan changes starts with a name, or with the sign of a decorator and a line. -/
theorem changed_head {change : HeadChange}
    (h : e.attempt lineStart (t :: ts) w = .ok (some change) w') :
    t.kind = .name ∨ (lineStart = true ∧ t.isOperator "@" = true) := by
  obtain ⟨head, hmem, hstart, w₁, hhead⟩ := firstChange_eq_some h
  simp only [Expander.heads, List.mem_cons, List.not_mem_nil, or_false] at hmem
  rcases hmem with rfl | rfl | rfl
  · rcases declareHead_eq_ok hhead with ⟨-, hr, -⟩ | ⟨_, _, hread, -, -⟩
    · cases hr
    · exact Or.inl (kind_of_declaration_read hread)
  · rcases decoratorHead_eq_ok hhead with ⟨-, hr, -⟩ | ⟨_, _, _, hread, -, -⟩
    · cases hr
    · exact Or.inr ⟨hstart rfl, isOperator_of_decoration_read hread⟩
  · rcases callHead_eq_ok hhead with ⟨hr, -, -⟩ | ⟨_, _, _, _, _, _, _, hts, hname, -⟩
    · cases hr
    · cases hts
      exact Or.inl hname

end attempt

/-! ## Passed tokens -/

/-- A call shows in four tokens. -/
theorem startsCall_append {a : List Token} (ha : 4 ≤ a.length) (x y : List Token) :
    startsCall operator (a ++ x) = startsCall operator (a ++ y) := by
  match a, ha with
  | _ :: _ :: _ :: _ :: _, _ => rfl

/-- A declaration shows in two tokens. -/
theorem startsDeclaration_append {a : List Token} (ha : 2 ≤ a.length) (x y : List Token) :
    startsDeclaration operator (a ++ x) = startsDeclaration operator (a ++ y) := by
  match a, ha with
  | _ :: _ :: _, _ => rfl

/-- Does `p` hold of the stream from some token on that the scan has passed? -/
def HoldsBehind (p : List Token → Bool) (before rest : List Token) : Prop :=
  ∃ k, 1 ≤ k ∧ k ≤ before.length ∧ p (behind before rest k) = true

theorem behind_cons (before rest : List Token) (t : Token) (k : Nat) :
    behind (t :: before) rest (k + 1) = behind before (t :: rest) k := by
  simp [behind]

theorem length_take_reverse {before : List Token} {k : Nat} (hk : k ≤ before.length) :
    (before.take k).reverse.length = k := by
  simp [hk]

/-- One more token is passed. -/
theorem holdsBehind_cons {p : List Token → Bool} {before ts : List Token} {t : Token} :
    HoldsBehind p (t :: before) ts ↔ HoldsBehind p before (t :: ts) ∨ p (t :: ts) = true := by
  constructor
  · rintro ⟨k, h1, hk, hp⟩
    obtain ⟨k, rfl⟩ := Nat.exists_eq_add_of_le' h1
    rw [behind_cons] at hp
    rcases Nat.eq_zero_or_pos k with rfl | hpos
    · exact Or.inr hp
    · exact Or.inl ⟨k, hpos, by simpa using hk, hp⟩
  · rintro (⟨k, h1, hk, hp⟩ | hp)
    · exact ⟨k + 1, by omega, by simpa using hk, by rwa [behind_cons]⟩
    · exact ⟨1, Nat.le_refl 1, by simp, by rw [behind_cons]; exact hp⟩

/-- Behind the place where a scan goes on, the last token before the splice does not count. -/
theorem holdsBehind_splice {p : List Token → Bool} {s : Splice} :
    HoldsBehind p s.passed s.pending ↔
      ∃ k, 2 ≤ k ∧ k ≤ s.before.length ∧ p (behind s.before (s.inserted ++ s.after) k) = true := by
  obtain ⟨before, inserted, after, position⟩ := s
  cases before with
  | nil =>
    simp only [HoldsBehind, Splice.passed, List.tail_nil, List.length_nil]
    constructor <;> rintro ⟨k, h1, hk, -⟩ <;> omega
  | cons t before =>
    simp only [HoldsBehind, Splice.passed, Splice.pending, List.tail_cons, List.head?_cons,
      Option.toList_some, List.cons_append, List.nil_append]
    constructor
    · rintro ⟨k, h1, hk, hp⟩
      exact ⟨k + 1, by omega, by simpa using hk, by rwa [behind_cons]⟩
    · rintro ⟨k, h2, hk, hp⟩
      obtain ⟨k, rfl⟩ := Nat.exists_eq_add_of_le' (Nat.le_of_succ_le h2)
      rw [behind_cons] at hp
      exact ⟨k, by omega, by simpa using hk, hp⟩

/-- At the end of a scan all tokens are passed. -/
theorem holdsBehind_reverse_iff {p : List Token → Bool} (hnil : p [] = false)
    {before : List Token} :
    HoldsBehind p before [] ↔ ∃ i, p (before.reverse.drop i) = true := by
  simp only [HoldsBehind, behind, List.append_nil, List.drop_reverse]
  constructor
  · rintro ⟨k, -, hk, hp⟩
    refine ⟨before.length - k, ?_⟩
    rwa [Nat.sub_sub_self hk]
  · rintro ⟨i, hp⟩
    refine ⟨before.length - i, ?_, Nat.sub_le _ _, hp⟩
    rcases Nat.eq_zero_or_pos (before.length - i) with h | h
    · rw [h, List.take_zero, List.reverse_nil, hnil] at hp
      cases hp
    · exact h

/-! ## Splices -/

section step

variable {e : Expander} {before ts : List Token} {t : Token} {change : HeadChange}

/-- No call ends where the scan changes the stream; the argument is whole, or is made anew. -/
theorem holdsCall_before_change {k : Nat}
    (h : e.attempt (atLineStart before) (t :: ts) w = .ok (some change) w') (h1 : 1 ≤ k)
    (hk : k ≤ before.length)
    (hcall : startsCall e.settings.operator (behind before (t :: ts) k) = true)
    (x : List Token) :
    2 ≤ k ∧ startsCall e.settings.operator (behind before x k) = true := by
  have hhead := changed_head h
  match k, before, hk with
  | 1, name :: before, _ =>
    -- the changed token would be the operator, behind a name in the same line
    simp only [behind, List.take_succ_cons, List.take_zero, List.reverse_singleton,
      List.singleton_append, startsCall, Bool.and_eq_true, beq_iff_eq, Token.isOperator] at hcall
    rcases hhead with hname | ⟨hline, -⟩
    · rw [hname] at hcall
      cases hcall.1.2.1
    · simp [atLineStart, hcall.1.1] at hline
  | 2, op :: name :: before, _ =>
    -- the changed token would be an opening bracket or a colon
    simp only [behind, List.take_succ_cons, List.take_zero, List.reverse_cons, List.reverse_nil,
      List.nil_append, List.cons_append, startsCall, Bool.and_eq_true] at hcall
    have harg := hcall.2
    rcases hhead with hname | ⟨-, hsign⟩
    · simp [startsArgument, Token.isOpener, Token.isOperator, hname] at harg
    · simp only [Token.isOperator, Bool.and_eq_true, beq_iff_eq] at hsign
      simp [startsArgument, Token.isOpener, Token.isOperator, hsign] at harg
  | 3, first :: op :: name :: before, _ =>
    simp only [behind, List.take_succ_cons, List.take_zero, List.reverse_cons, List.reverse_nil,
      List.nil_append, List.cons_append, startsCall, startsArgument, List.head?_cons,
      Option.any_some, Bool.and_eq_true, Bool.or_eq_true, beq_iff_eq] at hcall ⊢
    refine ⟨by omega, hcall.1, ?_⟩
    rcases hcall.2 with hopen | ⟨-, hindent⟩
    · exact Or.inl hopen
    · rcases hhead with hname | ⟨-, hsign⟩
      · rw [hname] at hindent
        cases hindent
      · simp [Token.isOperator, hindent] at hsign
  | k + 4, before, hk =>
    refine ⟨by omega, ?_⟩
    have hlen : (before.take (k + 4)).reverse.length = k + 4 := length_take_reverse hk
    rw [behind, startsCall_append (by omega) x (t :: ts)]
    exact hcall

/-- The calls among the passed tokens, from one splice to the next. -/
theorem holdsCall_splice (h : e.attempt (atLineStart before) (t :: ts) w = .ok (some change) w') :
    HoldsBehind (startsCall e.settings.operator) (change.splice before (t :: ts)).passed
        (change.splice before (t :: ts)).pending ↔
      HoldsBehind (startsCall e.settings.operator) before (t :: ts) ∨
        (change.splice before (t :: ts)).CompletesCall e.settings.operator := by
  rw [holdsBehind_splice]
  constructor
  · rintro ⟨k, h2, hk, hcall⟩
    by_cases hshort : k ≤ 3
    · exact Or.inr ⟨k, by omega, hk, hcall⟩
    · refine Or.inl ⟨k, by omega, hk, ?_⟩
      have hlen : (before.take k).reverse.length = k := length_take_reverse hk
      rw [behind, startsCall_append (by omega)]
      exact hcall
  · rintro (⟨k, h1, hk, hcall⟩ | ⟨k, h23, hk, hcall⟩)
    · obtain ⟨h2, hcall⟩ := holdsCall_before_change h h1 hk hcall _
      exact ⟨k, h2, hk, hcall⟩
    · exact ⟨k, by omega, hk, hcall⟩

/-- A splice makes no declaration out of passed tokens. -/
theorem not_holdsDeclaration_splice
    (hclear : ¬ HoldsBehind (startsDeclaration operator) before (t :: ts)) :
    ¬ HoldsBehind (startsDeclaration operator) (change.splice before (t :: ts)).passed
      (change.splice before (t :: ts)).pending := by
  rw [holdsBehind_splice]
  rintro ⟨k, h2, hk, hdecl⟩
  have hlen : (before.take k).reverse.length = k := length_take_reverse hk
  refine hclear ⟨k, by omega, hk, ?_⟩
  rw [behind, startsDeclaration_append (by omega)]
  exact hdecl

end step

/-! ## Runs -/

section run

variable {e : Expander} {before rest out : List Token} {splices : List Splice}

theorem ScanRun.holdsCall_iff (hrun : ScanRun e.attempt before rest w splices out w') :
    (∃ i, startsCall e.settings.operator (out.drop i) = true) ↔
      HoldsBehind (startsCall e.settings.operator) before rest ∨
        ∃ s ∈ splices, s.CompletesCall e.settings.operator := by
  induction hrun with
  | done => simp [holdsBehind_reverse_iff (p := startsCall e.settings.operator) rfl]
  | pass hattempt _ ih =>
    rw [ih, holdsBehind_cons, (passed_clear hattempt).2]
    simp
  | splice hattempt _ _ ih =>
    rw [ih, holdsCall_splice hattempt]
    simp [or_assoc]

theorem ScanRun.not_exists_declaration (hrun : ScanRun e.attempt before rest w splices out w')
    (hclear : ¬ HoldsBehind (startsDeclaration e.settings.operator) before rest) :
    ∀ i, startsDeclaration e.settings.operator (out.drop i) = false := by
  induction hrun with
  | done =>
    intro i
    rw [holdsBehind_reverse_iff rfl] at hclear
    exact Bool.eq_false_iff.2 fun hdecl => hclear ⟨i, hdecl⟩
  | pass hattempt _ ih =>
    apply ih
    rw [holdsBehind_cons, (passed_clear hattempt).1]
    simpa using hclear
  | splice _ _ _ ih => exact ih (not_holdsDeclaration_splice hclear)

/-- An expanded stream holds no declaration, and it holds a call exactly if a splice of the scan
has put an argument behind a name and operator that the scan had passed. -/
theorem Expander.exists_call_iff {ts : List Token} (h : e.expand ts w = .ok out w') :
    (∀ i, startsDeclaration e.settings.operator (out.drop i) = false) ∧
      ∃ splices, e.Expands ts w splices out w' ∧
        ((∃ i, startsCall e.settings.operator (out.drop i) = true) ↔
          ∃ s ∈ splices, s.CompletesCall e.settings.operator) := by
  obtain ⟨splices, hexp⟩ := expand_eq_ok_iff.1 h
  have ⟨_, top, w₁, _, hrun, _⟩ := hexp
  have hnone : ∀ p, ¬ HoldsBehind p [] (top.getD ts) := by
    rintro p ⟨k, h1, hk, -⟩
    exact absurd (Nat.le_trans h1 hk) (by simp)
  refine ⟨hrun.not_exists_declaration (hnone _), splices, hexp, ?_⟩
  rw [hrun.holdsCall_iff]
  simp [hnone]

end run

/-! ## A call that is made late -/

/-- The stream `a ! f ! ( )`. -/
def lateCall : List Token :=
  [⟨.name, "a", {}⟩, ⟨.operator, "!", {}⟩, ⟨.name, "f", {}⟩, ⟨.operator, "!", {}⟩,
    ⟨.opener, "(", {}⟩, ⟨.closer, ")", {}⟩]

/-- `f` writes `( x )`, and `a` reads one token tree and writes `done`. -/
def lateCallMacros : Workspace where
  env := ((default : Environment).define "f" (.rules ⟨"f", [⟨[], [.literal ⟨.opener, "(", {}⟩,
    .literal ⟨.name, "x", {}⟩, .literal ⟨.closer, ")", {}⟩], rfl⟩]⟩)).define "a"
      (.rules ⟨"a", [⟨[.capture "t" .tree {}], [.literal ⟨.name, "done", {}⟩], rfl⟩]⟩)

/-- What becomes of it: `a ! ( x )`. -/
def lateCallExpanded : List Token :=
  [⟨.name, "a", {}⟩, ⟨.operator, "!", {}⟩, ⟨.opener, "(", {}⟩, ⟨.name, "x", {}⟩,
    ⟨.closer, ")", {}⟩]

theorem expand_lateCall : ∃ w', Expander.expand {} lateCall lateCallMacros = .ok lateCallExpanded w' ∧
    w'.env.knows "a" = true := by
  obtain ⟨out, w', hexp, hout⟩ := Expansion.exists_ok_of_passes
    (show (Expander.expand {} lateCall).Passes lateCallMacros
      (fun out w' => decide (out = lateCallExpanded) && w'.env.knows "a") by decide +kernel)
  simp only [Bool.and_eq_true, decide_eq_true_eq] at hout
  exact ⟨w', hout.1 ▸ hexp, hout.2⟩

/-- The first macro is known, and the stream still starts with a call of it. -/
theorem startsCall_expand_lateCall : ∃ out w',
    Expander.expand {} lateCall lateCallMacros = .ok out w' ∧ w'.env.knows "a" = true ∧
      startsCall "!" (out.drop 0) = true := by
  obtain ⟨w', hexp, ha⟩ := expand_lateCall
  exact ⟨lateCallExpanded, w', hexp, ha, by decide⟩

theorem exists_call_lateCall : ∃ w',
    Expander.expand {} lateCall lateCallMacros = .ok lateCallExpanded w' ∧
      (∀ i, startsDeclaration "!" (lateCallExpanded.drop i) = false) ∧
      ∃ splices, Expander.Expands {} lateCall lateCallMacros splices lateCallExpanded w' ∧
        ((∃ i, startsCall "!" (lateCallExpanded.drop i) = true) ↔
          ∃ s ∈ splices, s.CompletesCall "!") := by
  obtain ⟨w', hexp, -⟩ := expand_lateCall
  exact ⟨w', hexp, Expander.exists_call_iff hexp⟩

end TokenMacros
