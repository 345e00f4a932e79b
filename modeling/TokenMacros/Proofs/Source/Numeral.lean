import Mathlib.Tactic.SplitIfs
import TokenMacros.Proofs.Source.Cut
import TokenMacros.Source.Numeral

/-!
# Numerals set apart

A number that is cut out of a text and set apart is the same number:

    Cuts id number                                         (cuts_number)

The same holds of its parts (`DigitClass.digitRun_cut`, `cutsLength_digits`,
`cutsLength_exponent`, `behindDigits_cut`), since a space or a line feed is no digit,
letter, sign or point.
-/

namespace TokenMacros.Source

variable {digit : Char → Bool} {a b b' cs : List Char} {c : Char} {n : Nat}

/-- No digit is an underscore, a space or a line feed. -/
structure DigitClass (digit : Char → Bool) : Prop where
  underscore : digit '_' = false
  space : digit ' ' = false
  lineFeed : digit '\n' = false

theorem digitRun_le (cs : List Char) : digitRun digit cs ≤ cs.length := by
  fun_induction digitRun digit cs <;> simp <;> omega

theorem DigitClass.digitRun_separated (hd : DigitClass digit) (hb : Separated b) :
    digitRun digit b = 0 := by
  cases b with
  | nil => rfl
  | cons c cs =>
    rcases hb c rfl with rfl | rfl
    · simp [digitRun, hd.space]
    · simp [digitRun, hd.lineFeed]

theorem digitRun_cons (hc : c ≠ '_') (cs : List Char) :
    digitRun digit (c :: cs) = if digit c then digitRun digit cs + 1 else 0 := by
  cases cs <;> simp [digitRun, hc]

/-- An underscore counts only together with the digit behind it. -/
theorem DigitClass.digitRun_underscore (hd : DigitClass digit)
    (h : digitRun digit ('_' :: b) ≤ 1) : digitRun digit ('_' :: b) = 0 := by
  cases b with
  | nil => simp [digitRun, hd.underscore]
  | cons c cs =>
    rw [digitRun] at h ⊢
    split_ifs at h ⊢ with hc
    · omega
    · rfl

theorem DigitClass.digitRun_underscore_separated (hd : DigitClass digit) (hb : Separated b) :
    digitRun digit ('_' :: b) = 0 := by
  cases b with
  | nil => simp [digitRun, hd.underscore]
  | cons c cs =>
    rcases hb c rfl with rfl | rfl
    · simp [digitRun, hd.space]
    · simp [digitRun, hd.lineFeed]

theorem DigitClass.digitRun_cut (hd : DigitClass digit) (hb : Separated b')
    (h : digitRun digit (a ++ b) ≤ a.length) :
    digitRun digit (a ++ b') = digitRun digit (a ++ b) := by
  induction a using digitRun.induct digit with
  | case1 c cs hc ih =>
    simp only [List.cons_append, digitRun, hc, if_true, List.length_cons] at h ⊢
    rw [ih (by omega)]
  | case2 c cs hc => simp [digitRun, hc]
  | case3 c cs hne hc ih =>
    have hc' : c ≠ '_' := by
      rintro rfl
      rw [hd.underscore] at hc
      cases hc
    simp only [List.cons_append, digitRun_cons hc', hc, if_true, List.length_cons] at h ⊢
    rw [ih (by omega)]
  | case4 c cs hne hc =>
    by_cases hc' : c = '_'
    · subst hc'
      cases cs with
      | cons d ds => exact (hne d ds rfl rfl).elim
      | nil =>
        have hzero : digitRun digit (['_'] ++ b) = 0 := hd.digitRun_underscore h
        rw [hzero]
        exact hd.digitRun_underscore_separated hb
    · simp [digitRun_cons hc', hc]
  | case5 =>
    rw [List.nil_append, hd.digitRun_separated hb]
    exact (Nat.le_zero.1 h).symm

/-! ## Digits and exponents -/

theorem digitClass_isDigit : DigitClass Char.isDigit := ⟨rfl, rfl, rfl⟩

theorem cutsLength_digits : CutsLength digits where
  le cs := by
    cases cs with
    | nil => exact Nat.le_refl 0
    | cons c cs =>
      rw [digits]
      split_ifs
      · exact Nat.succ_le_succ (digitRun_le cs)
      · exact Nat.zero_le _
  separated {b} hb := by
    cases b with
    | nil => rfl
    | cons c cs => rcases hb c rfl with rfl | rfl <;> rfl
  cut_cons {c a b b'} hb h := by
    rw [List.cons_append, digits] at h
    rw [List.cons_append, List.cons_append, digits, digits]
    split_ifs at h ⊢
    · rw [digitClass_isDigit.digitRun_cut hb (Nat.le_of_succ_le_succ h)]
    · rfl

/-- The length of a sign. -/
def signLength : List Char → Nat
  | '+' :: _ => 1
  | '-' :: _ => 1
  | _ => 0

theorem exponent_cons (c : Char) (cs : List Char) : exponent (c :: cs) =
    if isLetter 'e' c && digits (cs.drop (signLength cs)) ≠ 0 then
      1 + signLength cs + digits (cs.drop (signLength cs)) else 0 := rfl

theorem signLength_le (cs : List Char) : signLength cs ≤ cs.length := by
  unfold signLength
  split <;> simp

theorem signLength_separated (hb : Separated b) : signLength b = 0 := by
  cases b with
  | nil => rfl
  | cons c cs => rcases hb c rfl with rfl | rfl <;> rfl

theorem signLength_append (ha : a ≠ []) (b : List Char) : signLength (a ++ b) = signLength a := by
  obtain ⟨c, a, rfl⟩ := List.exists_cons_of_ne_nil ha
  rw [List.cons_append]
  unfold signLength
  split <;> split <;> simp_all

theorem cutsLength_exponent : CutsLength exponent where
  le cs := by
    cases cs with
    | nil => exact Nat.le_refl 0
    | cons c cs =>
      have hsign := signLength_le cs
      have hdigits := cutsLength_digits.le (cs.drop (signLength cs))
      rw [List.length_drop] at hdigits
      rw [exponent_cons, List.length_cons]
      split_ifs <;> omega
  separated {b} hb := by
    cases b with
    | nil => rfl
    | cons c cs => rcases hb c rfl with rfl | rfl <;> rfl
  cut_cons {c a b b'} hb h := by
    rw [List.cons_append, exponent_cons, List.length_cons] at h
    rw [List.cons_append, List.cons_append, exponent_cons, exponent_cons]
    cases a with
    | nil =>
      -- the letter alone is no exponent, so there is none on either side
      have hzero : digits (b'.drop (signLength b')) = 0 := by
        rw [signLength_separated hb, List.drop_zero, cutsLength_digits.separated hb]
      have hleft : ¬(isLetter 'e' c && digits (b.drop (signLength b)) ≠ 0) = true := by
        intro hcond
        rw [List.nil_append, if_pos hcond, List.length_nil] at h
        simp only [Bool.and_eq_true, decide_eq_true_eq] at hcond
        omega
      rw [List.nil_append, List.nil_append, hzero, if_neg hleft]
      simp
    | cons d a =>
      have hne : d :: a ≠ [] := List.cons_ne_nil d a
      have hsign := signLength_le (d :: a)
      rw [signLength_append hne, List.drop_append_of_le_length hsign] at h ⊢
      rw [signLength_append hne, List.drop_append_of_le_length hsign]
      by_cases hletter : isLetter 'e' c = true
      · have hdigits : digits ((d :: a).drop (signLength (d :: a)) ++ b') =
            digits ((d :: a).drop (signLength (d :: a)) ++ b) := by
          apply cutsLength_digits.cut hb
          rw [List.length_drop]
          split_ifs at h with hcond
          · omega
          · have hzero : digits ((d :: a).drop (signLength (d :: a)) ++ b) = 0 := by
              simpa [hletter] using hcond
            omega
        rw [hdigits]
      · simp [hletter]

/-! ## Numbers -/

theorem basedNumber_eq_some_iff {letter : Char} :
    basedNumber letter digit cs = some n ↔ ∃ c tail, cs = '0' :: c :: tail ∧
      isLetter letter c = true ∧ digitRun digit tail ≠ 0 ∧ n = digitRun digit tail + 2 := by
  constructor
  · intro h
    unfold basedNumber at h
    split at h
    · next c tail =>
      split_ifs at h with hcond
      cases h
      simp only [Bool.and_eq_true, decide_eq_true_eq] at hcond
      exact ⟨c, tail, rfl, hcond.1, hcond.2, rfl⟩
    · cases h
  · rintro ⟨c, tail, rfl, hletter, hrun, rfl⟩
    simp [basedNumber, hletter, hrun]

theorem cuts_basedNumber {letter : Char} (hd : DigitClass digit)
    (hs : isLetter letter ' ' = false) (hl : isLetter letter '\n' = false) :
    Cuts id (basedNumber letter digit) where
  le {cs n} h := by
    obtain ⟨c, tail, rfl, -, -, rfl⟩ := basedNumber_eq_some_iff.1 h
    exact Nat.succ_le_succ (Nat.succ_le_succ (digitRun_le tail))
  cut {a b b' n} hb h hn := by
    obtain ⟨c, tail, heq, hletter, hrun, rfl⟩ := basedNumber_eq_some_iff.1 h
    rcases a with _ | ⟨d, _ | ⟨e, a⟩⟩
    · simp at hn
    · simp at hn
    · obtain ⟨rfl, rfl, rfl⟩ : d = '0' ∧ e = c ∧ a ++ b = tail := by simpa using heq
      have hcut := hd.digitRun_cut (a := a) hb (Nat.le_of_add_le_add_right hn)
      rw [← hcut] at hrun ⊢
      exact basedNumber_eq_some_iff.2 ⟨e, a ++ b', rfl, hletter, hrun, rfl⟩
  fails {a b b'} hb h := by
    rw [Option.eq_none_iff_forall_ne_some] at h ⊢
    intro n hn
    obtain ⟨c, tail, heq, hletter, hrun, rfl⟩ := basedNumber_eq_some_iff.1 hn
    rcases a with _ | ⟨d, _ | ⟨e, a⟩⟩
    · rw [List.nil_append] at heq
      subst heq
      simpa using hb '0' rfl
    · cases heq
      rcases hb c rfl with rfl | rfl
      · rw [hs] at hletter
        cases hletter
      · rw [hl] at hletter
        cases hletter
    · obtain ⟨rfl, rfl, rfl⟩ : d = '0' ∧ e = c ∧ a ++ b' = tail := by simpa using heq
      refine h _ (basedNumber_eq_some_iff.2 ⟨e, a ++ b, rfl, hletter, fun hzero => hrun ?_, rfl⟩)
      rw [hd.digitRun_cut (b := b) hb (by omega), hzero]

/-- The length of a decimal number whose digits before the point have length `n`. -/
def behindDigits (n : Nat) : List Char → Option Nat
  | '.' :: rest => if n = 0 ∧ digits rest = 0 then none else some (n + 1 + digits rest)
  | _ => if n = 0 then none else some n

theorem mantissa_eq (cs : List Char) :
    mantissa cs = behindDigits (digits cs) (cs.drop (digits cs)) := rfl

theorem behindDigits_point (n : Nat) (cs : List Char) : behindDigits n ('.' :: cs) =
    if n = 0 ∧ digits cs = 0 then none else some (n + 1 + digits cs) := rfl

theorem behindDigits_of_ne (h : ∀ c ∈ cs.head?, c ≠ '.') (n : Nat) :
    behindDigits n cs = if n = 0 then none else some n := by
  unfold behindDigits
  split
  · exact (h '.' rfl rfl).elim
  · rfl

theorem Separated.ne_point (hb : Separated b) : ∀ c ∈ b.head?, c ≠ '.' := by
  intro c hc
  rcases hb c hc with rfl | rfl <;> decide

/-- A text starts with a point, or behaves behind digits as if nothing were there. -/
theorem point_or_ne (cs : List Char) :
    (∃ rest, cs = '.' :: rest) ∨ ∀ c ∈ cs.head?, c ≠ '.' := by
  cases cs with
  | nil => exact .inr (by simp)
  | cons c cs =>
    by_cases hc : c = '.'
    · exact .inl ⟨cs, by rw [hc]⟩
    · exact .inr (by simpa using hc)

theorem behindDigits_le {m : Nat} (h : behindDigits m cs = some n) :
    m ≤ n ∧ n ≤ m + cs.length := by
  rcases point_or_ne cs with ⟨rest, rfl⟩ | hne
  · have hdigits := cutsLength_digits.le rest
    rw [behindDigits_point] at h
    split_ifs at h
    cases h
    rw [List.length_cons]
    omega
  · rw [behindDigits_of_ne hne] at h
    split_ifs at h
    cases h
    omega

theorem behindDigits_cut {m : Nat} (hb : Separated b') (h : behindDigits m (a ++ b) = some n)
    (hn : n ≤ m + a.length) : behindDigits m (a ++ b') = some n := by
  cases a with
  | nil =>
    obtain rfl : n = m := by
      have := (behindDigits_le h).1
      simp only [List.length_nil] at hn
      omega
    have hpos : n ≠ 0 := by
      rintro rfl
      rcases point_or_ne b with ⟨rest, rfl⟩ | hne
      · rw [List.nil_append, behindDigits_point] at h
        split_ifs at h
        simp only [Option.some.injEq] at h
        omega
      · rw [List.nil_append, behindDigits_of_ne hne] at h
        cases h
    rw [List.nil_append, behindDigits_of_ne hb.ne_point, if_neg hpos]
  | cons c a =>
    by_cases hc : c = '.'
    · subst hc
      rw [List.cons_append, behindDigits_point] at h ⊢
      have hcut : digits (a ++ b') = digits (a ++ b) := by
        apply cutsLength_digits.cut hb
        split_ifs at h with hzero
        rw [Option.some.injEq] at h
        rw [List.length_cons] at hn
        omega
      rw [hcut, h]
    · rw [behindDigits_of_ne (by simpa using hc)] at h ⊢
      exact h

theorem eq_zero_of_behindDigits {m : Nat} (h : behindDigits m cs = none) : m = 0 := by
  rcases point_or_ne cs with ⟨rest, rfl⟩ | hne
  · rw [behindDigits_point] at h
    split_ifs at h with hzero
    exact hzero.1
  · rw [behindDigits_of_ne hne] at h
    split_ifs at h with hzero
    exact hzero

theorem behindDigits_fails {m : Nat} (hb : Separated b') (h : behindDigits m (a ++ b) = none) :
    behindDigits m (a ++ b') = none := by
  have hm := eq_zero_of_behindDigits h
  cases a with
  | nil => rw [List.nil_append, behindDigits_of_ne hb.ne_point, if_pos hm]
  | cons c a =>
    by_cases hc : c = '.'
    · subst hc
      rw [List.cons_append, behindDigits_point] at h ⊢
      split_ifs at h with hzero
      rw [cutsLength_digits.cut (b := b) hb (by omega), if_pos hzero]
    · rw [behindDigits_of_ne (by simpa using hc), if_pos hm]

theorem cuts_mantissa : Cuts id mantissa where
  le {cs n} h := by
    have hdigits := cutsLength_digits.le cs
    have hle := (behindDigits_le h).2
    rw [List.length_drop] at hle
    rw [id_eq]
    omega
  cut {a b b' n} hb h hn := by
    rw [id_eq] at hn
    rw [mantissa_eq] at h ⊢
    have hle : digits (a ++ b) ≤ a.length := Nat.le_trans (behindDigits_le h).1 hn
    rw [cutsLength_digits.cut hb hle]
    rw [List.drop_append_of_le_length hle] at h ⊢
    refine behindDigits_cut hb h ?_
    rw [List.length_drop]
    omega
  fails {a b b'} hb h := by
    rw [mantissa_eq] at h ⊢
    have hzero := eq_zero_of_behindDigits h
    rw [hzero, List.drop_zero] at h
    rw [cutsLength_digits.cut (b := b) hb (by omega), hzero, List.drop_zero]
    exact behindDigits_fails hb h

theorem cuts_decimalNumber : Cuts id decimalNumber := cuts_mantissa.add cutsLength_exponent

/-- The length of a number before the mark of an imaginary one. -/
def realNumber (cs : List Char) : Option Nat :=
  basedNumber 'x' isHexDigit cs <|> basedNumber 'o' isOctalDigit cs
    <|> basedNumber 'b' isBinaryDigit cs <|> decimalNumber cs

theorem cuts_realNumber : Cuts id realNumber :=
  (cuts_basedNumber ⟨rfl, rfl, rfl⟩ rfl rfl).orElse
    ((cuts_basedNumber ⟨rfl, rfl, rfl⟩ rfl rfl).orElse
      ((cuts_basedNumber ⟨rfl, rfl, rfl⟩ rfl rfl).orElse cuts_decimalNumber))

/-- The length of the mark of an imaginary number. -/
def imaginaryMark (cs : List Char) : Nat := if cs.head?.any (isLetter 'j') then 1 else 0

theorem cutsLength_imaginaryMark : CutsLength imaginaryMark where
  le cs := by
    cases cs with
    | nil => exact Nat.le_refl 0
    | cons c cs =>
      rw [imaginaryMark, List.length_cons]
      split_ifs <;> omega
  separated {b} hb := by
    cases b with
    | nil => rfl
    | cons c cs => rcases hb c rfl with rfl | rfl <;> rfl
  cut_cons _ _ := rfl

theorem number_eq :
    number = fun cs => (realNumber cs).map fun n => n + imaginaryMark (cs.drop n) := by
  funext cs
  rw [number, realNumber]
  refine congrArg (Option.map · _) (funext fun n => ?_)
  unfold imaginaryMark
  split_ifs <;> rfl

/-- A number is read by itself as it was read among other characters. -/
theorem cuts_number : Cuts id number := by
  rw [number_eq]
  exact cuts_realNumber.add cutsLength_imaginaryMark

/-- A number starts with a digit or a point. -/
theorem exists_head_of_number (h : number cs = some n) :
    ∃ c tail, cs = c :: tail ∧ (c.isDigit = true ∨ c = '.') := by
  rw [number_eq] at h
  obtain ⟨m, hm, -⟩ := Option.map_eq_some_iff.1 h
  have hbased : ∀ {letter : Char} {digit : Char → Bool}, basedNumber letter digit cs = some m →
      ∃ c tail, cs = c :: tail ∧ (c.isDigit = true ∨ c = '.') := by
    intro letter digit hbased
    obtain ⟨c, tail, rfl, -⟩ := basedNumber_eq_some_iff.1 hbased
    exact ⟨_, _, rfl, .inl rfl⟩
  simp only [realNumber, Option.orElse_eq_some] at hm
  rcases hm with hx | ⟨-, ho | ⟨-, hb | ⟨-, hdecimal⟩⟩⟩
  · exact hbased hx
  · exact hbased ho
  · exact hbased hb
  · obtain ⟨k, hk, -⟩ := Option.map_eq_some_iff.1 hdecimal
    rw [mantissa_eq] at hk
    cases cs with
    | nil => cases hk
    | cons c cs =>
      refine ⟨c, cs, rfl, ?_⟩
      by_cases hc : c.isDigit = true
      · exact .inl hc
      · right
        by_contra hpoint
        have hzero : digits (c :: cs) = 0 := by simp [digits, hc]
        rw [hzero, List.drop_zero, behindDigits_of_ne (by simpa using hpoint)] at hk
        cases hk

end TokenMacros.Source
