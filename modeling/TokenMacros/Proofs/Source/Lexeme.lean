import Mathlib.Tactic.SplitIfs
import Mathlib.Data.List.TakeWhile
import TokenMacros.Proofs.Source.Numeral
import TokenMacros.Source.Layout

/-!
# Words set apart

The lexemes that become tokens are words: cut out of its source and set apart by a space
or a line feed, a word is the same lexeme again, whatever follows.

    lexeme? cs = some (kind, n) → kind.token?.isSome = true →
      WordText kind (cs.take n)                            (wordText_of_lexeme?)

Each kind but one is a reader that cuts (`cuts_name`, `cuts_oneOf`, `cuts_operator`), and
so is their ordered choice (`cuts_plainWord`). A string literal is tried before them and is
no such reader, as an opening quote looks for its closing one in the whole text. A literal
ends with its own quote (`exists_of_stringLiteral`), and the other words start none when
set apart.
-/

namespace TokenMacros.Source

variable {a b b' cs : List Char} {c quote : Char} {n : Nat} {kind : LexemeKind}

/-! ## String literals -/

theorem shortTail_cons (hc : c ≠ '\\') (cs : List Char) : shortTail quote (c :: cs) =
    if c = quote then some 1 else if isLineEnd c then none
    else (shortTail quote cs).map (· + 1) := by
  cases cs <;> simp [shortTail, hc]

theorem longTail_cons (hc : c ≠ '\\') (cs : List Char) : longTail quote (c :: cs) =
    if c = quote ∧ cs.take 2 = [quote, quote] then some 3
    else (longTail quote cs).map (· + 1) := by
  cases cs <;> simp [longTail, hc]

/-- A backslash at the end starts nothing, so a literal does not end there. -/
theorem ne_backslash_of_shortTail (hq : quote ≠ '\\') (h : shortTail quote (c :: cs) = some n)
    (hne : ∀ d ds, c = '\\' → cs = d :: ds → False) : c ≠ '\\' := by
  rintro rfl
  cases cs with
  | nil => simp [shortTail, hq.symm] at h
  | cons d ds => exact hne d ds rfl rfl

theorem ne_backslash_of_longTail (h : longTail quote (c :: cs) = some n)
    (hne : ∀ d ds, c = '\\' → cs = d :: ds → False) : c ≠ '\\' := by
  rintro rfl
  cases cs with
  | nil => simp [longTail] at h
  | cons d ds => exact hne d ds rfl rfl

/-- A literal with one quote ends with its first quote, whatever follows. -/
theorem exists_of_shortTail (hq : quote ≠ '\\') (h : shortTail quote cs = some n) :
    ∃ front rest, cs = front ++ quote :: rest ∧ n = front.length + 1 ∧
      ∀ rest', shortTail quote (front ++ quote :: rest') = some n := by
  induction cs using shortTail.induct quote generalizing n with
  | case1 => cases h
  | case2 c cs ih =>
    rw [shortTail, Option.map_eq_some_iff] at h
    obtain ⟨m, hm, rfl⟩ := h
    obtain ⟨front, rest, rfl, rfl, hread⟩ := ih hm
    refine ⟨'\\' :: c :: front, rest, rfl, rfl, fun rest' => ?_⟩
    rw [List.cons_append, List.cons_append, shortTail, hread]
    rfl
  | case3 cs hne =>
    rw [shortTail_cons hq, if_pos rfl] at h
    cases h
    refine ⟨[], cs, rfl, rfl, fun rest' => ?_⟩
    rw [List.nil_append, shortTail_cons hq, if_pos rfl]
  | case4 c cs hne hquote hend =>
    have hc := ne_backslash_of_shortTail hq h hne
    rw [shortTail_cons hc, if_neg hquote, if_pos hend] at h
    cases h
  | case5 c cs hne hquote hend ih =>
    have hc := ne_backslash_of_shortTail hq h hne
    rw [shortTail_cons hc, if_neg hquote, if_neg hend, Option.map_eq_some_iff] at h
    obtain ⟨m, hm, rfl⟩ := h
    obtain ⟨front, rest, rfl, rfl, hread⟩ := ih hm
    refine ⟨c :: front, rest, rfl, rfl, fun rest' => ?_⟩
    rw [List.cons_append, shortTail_cons hc, if_neg hquote, if_neg hend, hread]
    rfl

/-- A literal with three quotes ends with the first three in a row, whatever follows. -/
theorem exists_of_longTail (hq : quote ≠ '\\') (h : longTail quote cs = some n) :
    ∃ front rest, cs = front ++ quote :: rest ∧ n = front.length + 1 ∧ 2 ≤ front.length ∧
      ∀ rest', longTail quote (front ++ quote :: rest') = some n := by
  induction cs using longTail.induct quote generalizing n with
  | case1 => cases h
  | case2 c cs ih =>
    rw [longTail, Option.map_eq_some_iff] at h
    obtain ⟨m, hm, rfl⟩ := h
    obtain ⟨front, rest, rfl, rfl, -, hread⟩ := ih hm
    refine ⟨'\\' :: c :: front, rest, rfl, rfl, by simp, fun rest' => ?_⟩
    rw [List.cons_append, List.cons_append, longTail, hread]
    rfl
  | case3 c cs hne hclose =>
    obtain ⟨rfl, htake⟩ := hclose
    rw [longTail_cons hq, if_pos ⟨rfl, htake⟩] at h
    cases h
    obtain ⟨rest, rfl⟩ : ∃ rest, cs = c :: c :: rest :=
      ⟨cs.drop 2, by rw [← List.take_append_drop 2 cs, htake]; rfl⟩
    refine ⟨[c, c], rest, rfl, rfl, Nat.le_refl 2, fun rest' => ?_⟩
    rw [List.cons_append, longTail_cons hq, if_pos ⟨rfl, rfl⟩]
  | case4 c cs hne hclose ih =>
    have hc := ne_backslash_of_longTail h hne
    rw [longTail_cons hc, if_neg hclose, Option.map_eq_some_iff] at h
    obtain ⟨m, hm, rfl⟩ := h
    obtain ⟨front, rest, rfl, rfl, hlen, hread⟩ := ih hm
    refine ⟨c :: front, rest, rfl, rfl, Nat.le_succ_of_le hlen, fun rest' => ?_⟩
    -- the two characters behind `c` are of the literal, so it ends no sooner than before
    rw [List.take_append_of_le_length hlen] at hclose
    rw [List.cons_append, longTail_cons hc, List.take_append_of_le_length hlen, if_neg hclose,
      hread]
    rfl

theorem quotedBy_of_ne (h : ∀ c ∈ cs.head?, c ≠ quote) : quotedBy quote cs = none := by
  cases cs with
  | nil => rfl
  | cons c cs =>
    have hc : c ≠ quote := h c rfl
    simp [quotedBy, hc]

theorem quotedBy_long (h : longTail quote cs = some n) :
    quotedBy quote (quote :: quote :: quote :: cs) = some (n + 3) := by
  simp [quotedBy, h]

theorem quotedBy_short (hopen : cs.take 2 ≠ [quote, quote]) (h : shortTail quote cs = some n) :
    quotedBy quote (quote :: cs) = some (n + 1) := by
  simp [quotedBy, hopen, h]

/-- A literal without its mark stands between quotes, and is read as it is when set apart. -/
theorem exists_of_quotedBy (hq : quote = '"' ∨ quote = '\'') (h : quotedBy quote cs = some n) :
    ∃ inner rest, cs = quote :: inner ++ quote :: rest ∧ n = inner.length + 2 ∧
      ∀ {b}, Separated b → quotedBy quote (quote :: inner ++ quote :: b) = some n := by
  have hback : quote ≠ '\\' := by rcases hq with rfl | rfl <;> decide
  rcases (Option.orElse_eq_some _ _ _).1 h with h | ⟨-, h⟩
  · split_ifs at h with hopen
    obtain ⟨m, hm, rfl⟩ := Option.map_eq_some_iff.1 h
    obtain ⟨front, rest, hdrop, rfl, -, hread⟩ := exists_of_longTail hback hm
    refine ⟨quote :: quote :: front, rest, ?_, by simp, fun _ => quotedBy_long (hread _)⟩
    rw [← List.take_append_drop 3 cs, hopen, hdrop]
    rfl
  · split_ifs at h with hopen
    obtain ⟨m, hm, rfl⟩ := Option.map_eq_some_iff.1 h
    obtain ⟨inner, rest, hdrop, rfl, hread⟩ := exists_of_shortTail hback hm
    refine ⟨inner, rest, ?_, rfl, fun {b} hb => quotedBy_short ?_ (hread b)⟩
    · rw [← List.take_append_drop 1 cs, hopen, hdrop]
      rfl
    · -- two more quotes would be the end of the literal and a quote of what is set apart
      cases inner with
      | nil =>
        cases b with
        | nil => simp
        | cons c b => rcases hb c rfl with rfl | rfl <;> rcases hq with rfl | rfl <;> simp
      | cons c inner =>
        intro htwo
        obtain rfl : c = quote := by simpa using congrArg List.head? htwo
        have hone := hread []
        rw [List.cons_append, shortTail_cons hback, if_pos rfl] at hone
        simp at hone

theorem markLength_append (ha : 2 ≤ a.length) (b : List Char) :
    markLength (a ++ b) = markLength a := by
  rw [markLength, markLength, List.take_append_of_le_length ha,
    List.take_append_of_le_length (Nat.le_of_succ_le ha)]

/-- The two kinds of quote exclude each other. -/
theorem quoted_eq_some_iff : (quotedBy '"' cs <|> quotedBy '\'' cs) = some n ↔
    ∃ quote, (quote = '"' ∨ quote = '\'') ∧ quotedBy quote cs = some n := by
  rw [Option.orElse_eq_some]
  constructor
  · rintro (h | ⟨-, h⟩)
    · exact ⟨'"', .inl rfl, h⟩
    · exact ⟨'\'', .inr rfl, h⟩
  · rintro ⟨_, rfl | rfl, h⟩
    · exact .inl h
    · obtain ⟨inner, rest, rfl, -, -⟩ := exists_of_quotedBy (.inr rfl) h
      exact .inr ⟨quotedBy_of_ne (by simp), h⟩

/-- A literal ends with a quote, and is read as it is when set apart. -/
theorem exists_of_stringLiteral (h : stringLiteral cs = some n) :
    ∃ text rest, cs = text ++ rest ∧ text.length = n ∧ text.getLast? ≠ some '\n' ∧
      ∀ {b}, Separated b → stringLiteral (text ++ b) = some n := by
  obtain ⟨m, hm, rfl⟩ := Option.map_eq_some_iff.1 h
  obtain ⟨quote, hq, hquoted⟩ := quoted_eq_some_iff.1 hm
  obtain ⟨inner, rest, hbody, rfl, hread⟩ := exists_of_quotedBy hq hquoted
  obtain ⟨mark, hmark, hcs⟩ : ∃ mark : List Char, mark.length = markLength cs ∧
      cs = mark ++ (quote :: inner ++ [quote]) ++ rest := by
    refine ⟨cs.take (markLength cs), ?_, ?_⟩
    · have hlen := congrArg List.length hbody
      simp only [List.length_drop, List.length_append, List.length_cons] at hlen
      rw [List.length_take]
      omega
    · rw [List.append_assoc, List.append_assoc, List.singleton_append, ← hbody,
        List.take_append_drop]
  have hlen : (mark ++ (quote :: inner ++ [quote])).length =
      markLength cs + (inner.length + 2) := by
    simp [hmark]
  have hsame : ∀ b, markLength (mark ++ (quote :: inner ++ [quote]) ++ b) = mark.length := by
    intro b
    have hrest := markLength_append (a := mark ++ (quote :: inner ++ [quote])) (by omega) rest
    rw [← hcs] at hrest
    rw [markLength_append (by omega), hmark, hrest]
  refine ⟨mark ++ (quote :: inner ++ [quote]), rest, hcs, hlen, ?_, fun {b} hb => ?_⟩
  · rw [← List.append_assoc, List.getLast?_concat]
    rcases hq with rfl | rfl <;> simp
  · rw [stringLiteral, hsame, List.append_assoc, List.drop_left, List.append_assoc,
      List.singleton_append, quoted_eq_some_iff.2 ⟨quote, hq, hread hb⟩, hmark]
    rfl

/-! ## Names -/

theorem takeWhile_separated {p : Char → Bool} (hs : p ' ' = false) (hl : p '\n' = false)
    (hb : Separated b) : b.takeWhile p = [] := by
  cases b with
  | nil => rfl
  | cons c b => rcases hb c rfl with rfl | rfl <;> simp [hs, hl]

/-- A run that ends within a part is the same run of the part set apart. -/
theorem takeWhile_cut {p : Char → Bool} (hs : p ' ' = false) (hl : p '\n' = false)
    (hb : Separated b') (h : ((a ++ b).takeWhile p).length ≤ a.length) :
    (a ++ b').takeWhile p = (a ++ b).takeWhile p := by
  induction a with
  | nil =>
    rw [List.nil_append, takeWhile_separated hs hl hb]
    exact (List.eq_nil_of_length_eq_zero (Nat.le_zero.1 h)).symm
  | cons c a ih =>
    rw [List.cons_append, List.takeWhile_cons] at h
    rw [List.cons_append, List.cons_append, List.takeWhile_cons, List.takeWhile_cons]
    split_ifs at h ⊢
    · rw [ih (Nat.le_of_succ_le_succ h)]
    · rfl

theorem name_cons_eq_some_iff : name (c :: cs) = some n ↔
    Text.isNameStart c = true ∧ n = (cs.takeWhile Text.isIdentifierContinue).length + 1 := by
  rw [name]
  split_ifs with hc <;> simp [hc, eq_comm]

theorem name_cons_eq_none_iff : name (c :: cs) = none ↔ Text.isNameStart c = false := by
  rw [name]
  split_ifs with hc <;> simp [hc]

theorem cuts_name : Cuts id name where
  le {cs n} h := by
    cases cs with
    | nil => cases h
    | cons c cs =>
      obtain ⟨-, rfl⟩ := name_cons_eq_some_iff.1 h
      exact Nat.succ_le_succ (List.takeWhile_sublist _).length_le
  cut {a b b' n} hb h hn := by
    cases a with
    | nil =>
      cases b with
      | nil => cases h
      | cons c b =>
        obtain ⟨-, rfl⟩ := name_cons_eq_some_iff.1 h
        cases hn
    | cons c a =>
      rw [List.cons_append, name_cons_eq_some_iff] at h ⊢
      obtain ⟨hc, rfl⟩ := h
      rw [takeWhile_cut rfl rfl hb (Nat.le_of_succ_le_succ hn)]
      exact ⟨hc, rfl⟩
  fails {a b b'} hb h := by
    cases a with
    | nil =>
      cases b' with
      | nil => rfl
      | cons c b' => rcases hb c rfl with rfl | rfl <;> rfl
    | cons c a =>
      rw [List.cons_append, name_cons_eq_none_iff] at h ⊢
      exact h

/-! ## Symbols -/

theorem oneOf_cons (set : List Char) (c : Char) (cs : List Char) :
    oneOf set (c :: cs) = if set.contains c then some 1 else none := rfl

theorem cuts_oneOf {set : List Char} (hs : set.contains ' ' = false)
    (hl : set.contains '\n' = false) : Cuts id (oneOf set) where
  le {cs n} h := by
    cases cs with
    | nil => cases h
    | cons c cs =>
      rw [oneOf_cons] at h
      split_ifs at h
      cases h
      exact Nat.succ_le_succ (Nat.zero_le _)
  cut {a b b' n} hb h hn := by
    cases a with
    | nil =>
      cases b with
      | nil => cases h
      | cons c b =>
        rw [List.nil_append, oneOf_cons] at h
        split_ifs at h
        cases h
        cases hn
    | cons c a => exact h
  fails {a b b'} hb h := by
    cases a with
    | nil =>
      cases b' with
      | nil => rfl
      | cons c b' =>
        rw [List.nil_append, oneOf_cons]
        rcases hb c rfl with rfl | rfl
        · rw [hs]
          rfl
        · rw [hl]
          rfl
    | cons c a => exact h

/-- A word without spaces and line feeds that a text starts with stands in front of what is set
apart. -/
theorem prefix_of_prefix_append {o : List Char} (ho : ∀ c ∈ o, c ≠ ' ' ∧ c ≠ '\n')
    (hb : Separated b) (h : o <+: a ++ b) : o <+: a := by
  induction o generalizing a with
  | nil => exact List.nil_prefix
  | cons c o ih =>
    rw [List.forall_mem_cons] at ho
    cases a with
    | nil =>
      obtain ⟨rest, hrest⟩ := h
      rcases hb c (by rw [← List.nil_append b, ← hrest]; rfl) with rfl | rfl
      · exact absurd rfl ho.1.1
      · exact absurd rfl ho.1.2
    | cons d a =>
      rw [List.cons_append, List.cons_prefix_cons] at h
      rw [List.cons_prefix_cons]
      exact ⟨h.1, ih ho.2 h.2⟩

theorem operators_plain : ∀ o ∈ operators, ∀ c ∈ o.toList, c ≠ ' ' ∧ c ≠ '\n' := by
  have hall : (operators.all fun o => o.toList.all fun c => c ≠ ' ' ∧ c ≠ '\n') = true := rfl
  simpa using hall

/-- The operator that is read is the first of the list that the text starts with. -/
theorem operator_eq_some_iff : operator cs = some n ↔ ∃ o before behind, o.toList <+: cs ∧
    operators = before ++ o :: behind ∧ (∀ o' ∈ before, ¬ o'.toList <+: cs) ∧
      o.toList.length = n := by
  rw [operator, Option.map_eq_some_iff]
  refine exists_congr fun o => ?_
  rw [List.find?_eq_some_iff_append, List.isPrefixOf_iff_prefix, String.length_toList]
  constructor
  · rintro ⟨⟨ho, before, behind, hlist, hbefore⟩, hlen⟩
    exact ⟨before, behind, ho, hlist, by simpa [← List.isPrefixOf_iff_prefix] using hbefore, hlen⟩
  · rintro ⟨before, behind, ho, hlist, hbefore, hlen⟩
    exact ⟨⟨ho, before, behind, hlist, by simpa [← List.isPrefixOf_iff_prefix] using hbefore⟩, hlen⟩

theorem operator_eq_none_iff : operator cs = none ↔ ∀ o ∈ operators, ¬ o.toList <+: cs := by
  simp [operator, List.find?_eq_none]

theorem cuts_operator : Cuts id operator where
  le {cs n} h := by
    obtain ⟨o, before, behind, ho, -, -, rfl⟩ := operator_eq_some_iff.1 h
    exact ho.length_le
  cut {a b b' n} hb h hn := by
    obtain ⟨o, before, behind, ho, hlist, hbefore, rfl⟩ := operator_eq_some_iff.1 h
    have hoa : o.toList <+: a := List.prefix_of_prefix_length_le ho (List.prefix_append a b) hn
    refine operator_eq_some_iff.2
      ⟨o, before, behind, hoa.trans (List.prefix_append a b'), hlist, fun o' ho' hprefix => ?_, rfl⟩
    have hmem : o' ∈ operators := hlist ▸ List.mem_append_left _ ho'
    have hoa' := prefix_of_prefix_append (operators_plain o' hmem) hb hprefix
    exact hbefore o' ho' (hoa'.trans (List.prefix_append a b))
  fails {a b b'} hb h := by
    rw [operator_eq_none_iff] at h ⊢
    intro o ho hprefix
    have hoa := prefix_of_prefix_append (operators_plain o ho) hb hprefix
    exact h o ho (hoa.trans (List.prefix_append a b))

/-! ## Words -/

/-- The words but for string literals. -/
def plainWord (cs : List Char) : Option (LexemeKind × Nat) :=
  (number cs).map (LexemeKind.number, ·)
    <|> (name cs).map (LexemeKind.name, ·)
    <|> (oneOf ['(', '[', '\x7b'] cs).map (LexemeKind.opener, ·)
    <|> (oneOf [')', ']', '\x7d'] cs).map (LexemeKind.closer, ·)
    <|> (oneOf ['$'] cs).map (LexemeKind.dollar, ·)
    <|> (operator cs).map (LexemeKind.operator, ·)

theorem Cuts.tag {f : List Char → Option Nat} (hf : Cuts id f) (kind : LexemeKind) :
    Cuts Prod.snd fun cs => (f cs).map (kind, ·) :=
  hf.map _ fun _ => rfl

theorem cuts_plainWord : Cuts Prod.snd plainWord := by
  have hopener : Cuts id (oneOf ['(', '[', '\x7b']) := cuts_oneOf rfl rfl
  have hcloser : Cuts id (oneOf [')', ']', '\x7d']) := cuts_oneOf rfl rfl
  have hdollar : Cuts id (oneOf ['$']) := cuts_oneOf rfl rfl
  exact (cuts_number.tag .number).orElse <| (cuts_name.tag .name).orElse <|
    (hopener.tag .opener).orElse <| (hcloser.tag .closer).orElse <|
      (hdollar.tag .dollar).orElse (cuts_operator.tag .operator)

/-! ### The first character -/

/-- Does the character start something that becomes no token? -/
def isLayout (c : Char) : Bool := isLineEnd c || isBlank c || c == '#' || c == '\\'

/-- May a string literal start with the character? -/
def startsLiteral (c : Char) : Bool :=
  c == '"' || c == '\'' || ['r', 'b', 'u', 'f'].contains c.toLower

theorem stringLiteral_of_head (h : startsLiteral c = false) (cs : List Char) :
    stringLiteral (c :: cs) = none := by
  simp only [startsLiteral, Bool.or_eq_false_iff, beq_eq_false_iff_ne] at h
  obtain ⟨⟨hdouble, hsingle⟩, hmark⟩ := h
  have hlen : markLength (c :: cs) = 0 := by
    simp only [List.contains_cons, List.contains_nil, Bool.or_false, Bool.or_eq_false_iff,
      beq_eq_false_iff_ne] at hmark
    simp [markLength, doubleMarks, singleMarks, hmark]
  rw [stringLiteral, hlen, List.drop_zero, quotedBy_of_ne (by simpa using hdouble),
    quotedBy_of_ne (by simpa using hsingle)]
  rfl

theorem lexeme?_eq (cs : List Char) : lexeme? cs =
    ((lineBreak cs).map (LexemeKind.lineBreak, ·) <|> (run isBlank cs).map (LexemeKind.blank, ·)
      <|> (comment cs).map (LexemeKind.comment, ·)
      <|> (continuation cs).map (LexemeKind.continuation, ·)
      <|> (stringLiteral cs).map (LexemeKind.string, ·) <|> plainWord cs) := rfl

theorem lexeme?_of_not_isLayout (hc : isLayout c = false) (cs : List Char) :
    lexeme? (c :: cs) =
      ((stringLiteral (c :: cs)).map (LexemeKind.string, ·) <|> plainWord (c :: cs)) := by
  simp only [isLayout, isLineEnd, isBlank, Bool.or_eq_false_iff, beq_eq_false_iff_ne] at hc
  obtain ⟨⟨⟨⟨hn, hr⟩, ⟨hs, ht⟩, hf⟩, hhash⟩, hback⟩ := hc
  have hbreak : lineBreak (c :: cs) = none := by
    unfold lineBreak
    split <;> simp_all
  have hblank : run isBlank (c :: cs) = none := by simp [run, isBlank, hs, ht, hf]
  have hcomment : comment (c :: cs) = none := by
    unfold comment
    split <;> simp_all
  have hcontinuation : continuation (c :: cs) = none := by
    unfold continuation
    split <;> simp_all
  rw [lexeme?_eq, hbreak, hblank, hcomment, hcontinuation]
  rfl

theorem toLower_of_isDigit (h : c.isDigit = true) : c.toLower = c := by
  simp only [Char.isDigit, Bool.and_eq_true, decide_eq_true_eq] at h
  refine dif_neg fun hupper => ?_
  -- `'A'` lies behind `'9'`
  have hle := UInt32.le_trans hupper.1 h.2
  revert hle
  decide

theorem startsLiteral_of_isDigit (h : c.isDigit = true) : startsLiteral c = false := by
  rw [Bool.eq_false_iff]
  intro hs
  simp only [startsLiteral, toLower_of_isDigit h, Bool.or_eq_true, beq_iff_eq, List.contains_cons,
    List.contains_nil, Bool.or_false] at hs
  rcases hs with (rfl | rfl) | rfl | rfl | rfl | rfl <;> cases h

theorem mem_of_oneOf {set : List Char} (h : oneOf set (c :: cs) = some n) : c ∈ set := by
  rw [oneOf_cons] at h
  split_ifs at h with hc
  exact List.contains_iff_mem.1 hc

theorem head_mem_of_operator (h : operator (c :: cs) = some n) :
    ∃ o ∈ operators, o.toList.head? = some c := by
  obtain ⟨o, before, behind, ⟨rest, hrest⟩, hlist, -, -⟩ := operator_eq_some_iff.1 h
  have hmem : o ∈ operators := hlist ▸ List.mem_append_right _ List.mem_cons_self
  have hne : ∀ o ∈ operators, o.toList ≠ [] := by decide
  obtain ⟨d, tail, hd⟩ := List.exists_cons_of_ne_nil (hne o hmem)
  rw [hd, List.cons_append, List.cons.injEq] at hrest
  exact ⟨o, hmem, by rw [hd, hrest.1]; rfl⟩

/-- The characters that brackets, the dollar sign and the operators start with. -/
def symbolHeads : List Char :=
  ['(', '[', '\x7b', ')', ']', '\x7d', '$'] ++ operators.filterMap fun o => o.toList.head?

/-- A word that is no literal is a number, a symbol or a name. -/
theorem head_of_plainWord (h : plainWord (c :: cs) = some (kind, n)) :
    c.isDigit = true ∨ c ∈ symbolHeads ∨ name (c :: cs) = some n := by
  have hset : ∀ {set : List Char} {m}, (∀ d ∈ set, d ∈ symbolHeads) →
      oneOf set (c :: cs) = some m → c ∈ symbolHeads :=
    fun hset hm => hset c (mem_of_oneOf hm)
  simp only [plainWord, Option.orElse_eq_some, Option.map_eq_some_iff, Prod.mk.injEq] at h
  rcases h with ⟨m, hm, -⟩ | ⟨-, ⟨m, hm, -, rfl⟩ | ⟨-, ⟨m, hm, -⟩ | ⟨-, ⟨m, hm, -⟩ |
    ⟨-, ⟨m, hm, -⟩ | ⟨-, m, hm, -⟩⟩⟩⟩⟩
  · obtain ⟨d, tail, heq, hd⟩ := exists_head_of_number hm
    cases heq
    rcases hd with hd | rfl
    · exact .inl hd
    · exact .inr (.inl (by decide))
  · exact .inr (.inr hm)
  · exact .inr (.inl (hset (by simp [symbolHeads]) hm))
  · exact .inr (.inl (hset (by simp [symbolHeads]) hm))
  · exact .inr (.inl (hset (by simp [symbolHeads]) hm))
  · exact .inr (.inl (List.mem_append_right _ (List.mem_filterMap.2 (head_mem_of_operator hm))))

theorem startsLiteral_of_symbolHeads : ∀ c ∈ symbolHeads, startsLiteral c = false := by
  have hall : (symbolHeads.all fun c => !startsLiteral c) = true := rfl
  simpa using hall

theorem plainWord_backslash (cs : List Char) : plainWord ('\\' :: cs) = none := by
  rw [Option.eq_none_iff_forall_ne_some]
  rintro ⟨kind, n⟩ h
  rcases head_of_plainWord h with hdigit | hsymbol | hname
  · cases hdigit
  · exact absurd hsymbol (by decide)
  · exact absurd (name_cons_eq_some_iff.1 hname).1 (by decide)

/-- What starts like layout becomes no token. -/
theorem not_isLayout_of_lexeme? (h : lexeme? (c :: cs) = some (kind, n))
    (hk : kind.token?.isSome = true) : isLayout c = false := by
  rw [lexeme?_eq] at h
  simp only [Option.orElse_eq_some, Option.map_eq_some_iff, Option.map_eq_none_iff,
    Prod.mk.injEq] at h
  rcases h with ⟨-, -, rfl, -⟩ | ⟨hbreak, ⟨-, -, rfl, -⟩ | ⟨hblank, ⟨-, -, rfl, -⟩ |
    ⟨hcomment, ⟨-, -, rfl, -⟩ | ⟨-, hword⟩⟩⟩⟩
  · cases hk
  · cases hk
  · cases hk
  · cases hk
  -- a line break, a blank or a comment would have been taken
  rw [Bool.eq_false_iff]
  intro hc
  simp only [isLayout, isLineEnd, isBlank, Bool.or_eq_true, beq_iff_eq] at hc
  rcases hc with (((rfl | rfl) | hc) | rfl) | rfl
  · simp [lineBreak] at hbreak
  · unfold lineBreak at hbreak
    split at hbreak <;> simp_all
  · have hblank' : isBlank c = true := by simpa [isBlank] using hc
    simp [run, hblank'] at hblank
  · simp [comment] at hcomment
  · rcases hword with ⟨m, hm, -⟩ | ⟨-, hm⟩
    · rw [stringLiteral_of_head rfl] at hm
      cases hm
    · rw [plainWord_backslash] at hm
      cases hm

/-! ### Words set apart -/

/-- Behind a part of a text, what is set apart adds nothing to the mark of a literal. -/
theorem markLength_le_of_separated (hb : Separated b) (c : Char) (a : List Char) :
    markLength (c :: a ++ b) ≤ (c :: a).length := by
  have htwo : ∀ cs, markLength cs ≤ 2 := by
    intro cs
    unfold markLength
    split_ifs <;> omega
  cases a with
  | cons d a => exact Nat.le_trans (htwo _) (Nat.succ_le_succ (Nat.succ_le_succ (Nat.zero_le _)))
  | nil =>
    have hno : doubleMarks.contains (((c :: b).take 2).map Char.toLower) = false := by
      cases b with
      | nil => simp [doubleMarks]
      | cons d b => rcases hb d rfl with rfl | rfl <;> simp [doubleMarks]
    rw [List.singleton_append, markLength, hno]
    simp only [Bool.false_eq_true, if_false, List.length_singleton]
    split_ifs <;> omega

theorem take_of_name (h : name (c :: cs) = some n) :
    (c :: cs).take n = c :: cs.takeWhile Text.isIdentifierContinue := by
  obtain ⟨-, rfl⟩ := name_cons_eq_some_iff.1 h
  rw [List.take_succ_cons, ← List.prefix_iff_eq_take.1 (List.takeWhile_prefix _)]

theorem ne_quote_of_name (h : name (c :: cs) = some n) (hq : quote = '"' ∨ quote = '\'') :
    ∀ d ∈ (c :: cs).take n, d ≠ quote := by
  rw [take_of_name h, List.forall_mem_cons]
  have hc := (name_cons_eq_some_iff.1 h).1
  constructor
  · rintro rfl
    rcases hq with rfl | rfl <;> cases hc
  · rintro d hd rfl
    have hcontinue := List.mem_takeWhile_imp hd
    rcases hq with rfl | rfl <;> cases hcontinue

/-- No quote is in a name or in front of what is set apart, so a name starts no literal. -/
theorem stringLiteral_of_name (h : name (c :: cs) = some n) (hb : Separated b) :
    stringLiteral ((c :: cs).take n ++ b) = none := by
  have hmark : markLength ((c :: cs).take n ++ b) ≤ ((c :: cs).take n).length := by
    rw [take_of_name h]
    exact markLength_le_of_separated hb c _
  have hquoted : ∀ quote, quote = '"' ∨ quote = '\'' →
      quotedBy quote (((c :: cs).take n ++ b).drop (markLength ((c :: cs).take n ++ b))) =
        none := by
    intro quote hq
    rw [List.drop_append_of_le_length hmark]
    refine quotedBy_of_ne fun d hd => ?_
    rw [Option.mem_def, List.head?_append, Option.or_eq_some_iff] at hd
    rcases hd with hd | ⟨-, hd⟩
    · exact ne_quote_of_name h hq d (List.mem_of_mem_drop (List.mem_of_mem_head? hd))
    · rcases hb d hd with rfl | rfl <;> rcases hq with rfl | rfl <;> decide
  rw [stringLiteral, hquoted _ (.inl rfl), hquoted _ (.inr rfl)]
  rfl

/-- The text of a word: set apart, it is one lexeme of that kind. -/
structure WordText (kind : LexemeKind) (text : List Char) : Prop where
  reads : ∀ {b}, Separated b → lexeme? (text ++ b) = some (kind, text.length)
  noBreak : text.getLast? ≠ some '\n'

theorem WordText.ne_nil {text : List Char} (h : WordText kind text) : text ≠ [] := by
  rintro rfl
  cases h.reads (b := []) (by simp [Separated])

theorem wordText_of_stringLiteral (hc : isLayout c = false) (h : stringLiteral (c :: cs) = some n) :
    WordText .string ((c :: cs).take n) := by
  obtain ⟨text, rest, hcs, rfl, hlast, hread⟩ := exists_of_stringLiteral h
  have htake : (c :: cs).take text.length = text := by rw [hcs, List.take_left]
  rw [htake]
  cases text with
  | nil => cases hread (b := []) (by simp [Separated])
  | cons d text =>
    rw [List.cons_append, List.cons.injEq] at hcs
    obtain ⟨rfl, -⟩ := hcs
    refine ⟨fun {b} hb => ?_, hlast⟩
    rw [List.cons_append, lexeme?_of_not_isLayout hc, ← List.cons_append, hread hb]
    rfl

theorem wordText_of_plainWord (hc : isLayout c = false)
    (h : plainWord (c :: cs) = some (kind, n)) : WordText kind ((c :: cs).take n) := by
  have hlen : ((c :: cs).take n).length = n := by
    rw [List.length_take]
    exact Nat.min_eq_left (cuts_plainWord.le h)
  refine ⟨fun {b} hb => ?_, cuts_plainWord.getLast?_take h⟩
  rw [hlen]
  have hplain : plainWord ((c :: cs).take n ++ b) = some (kind, n) := cuts_plainWord.take h hb
  cases n with
  | zero =>
    cases cuts_plainWord.take h (b := []) (by simp [Separated])
  | succ n =>
    have hliteral : stringLiteral ((c :: cs).take (n + 1) ++ b) = none := by
      rcases head_of_plainWord h with hdigit | hsymbol | hname
      · exact stringLiteral_of_head (startsLiteral_of_isDigit hdigit) _
      · exact stringLiteral_of_head (startsLiteral_of_symbolHeads c hsymbol) _
      · exact stringLiteral_of_name hname hb
    rw [List.take_succ_cons, List.cons_append] at hplain hliteral ⊢
    rw [lexeme?_of_not_isLayout hc, hliteral, hplain]
    rfl

/-- A lexeme that becomes a token is a word by itself. -/
theorem wordText_of_lexeme? (h : lexeme? cs = some (kind, n)) (hk : kind.token?.isSome = true) :
    WordText kind (cs.take n) := by
  cases cs with
  | nil => cases h
  | cons c cs =>
    have hc := not_isLayout_of_lexeme? h hk
    rw [lexeme?_of_not_isLayout hc, Option.orElse_eq_some] at h
    rcases h with h | ⟨-, h⟩
    · obtain ⟨m, hm, heq⟩ := Option.map_eq_some_iff.1 h
      cases heq
      exact wordText_of_stringLiteral hc hm
    · exact wordText_of_plainWord hc h

/-! ### Sources -/

theorem lexemesFrom_nil (fuel : Nat) (p : Place) : lexemesFrom fuel p [] = .ok ([], p) := by
  cases fuel <;> rfl

theorem eq_nil_of_lexemesFrom {fuel : Nat} {p q : Place}
    (h : lexemesFrom fuel p cs = .ok ([], q)) : cs = [] := by
  cases cs with
  | nil => rfl
  | cons c cs =>
    cases fuel with
    | zero => cases h
    | succ fuel =>
      rw [lexemesFrom] at h
      split at h
      · cases h
      · obtain ⟨_, -, heq⟩ := map_eq_ok_iff.1 h
        cases heq

/-- The first lexeme of a text, and the others behind it. -/
theorem lexemesFrom_cons {fuel : Nat} {p q : Place} {x : Lexeme} {xs : List Lexeme}
    (h : lexemesFrom fuel p cs = .ok (x :: xs, q)) :
    ∃ kind n fuel', lexeme? cs = some (kind, n) ∧ x = ⟨kind, cs.take n, p.position⟩ ∧
      lexemesFrom fuel' (p.advance (cs.take n)) (cs.drop n) = .ok (xs, q) := by
  cases cs with
  | nil => cases fuel <;> cases h
  | cons c cs =>
    cases fuel with
    | zero => cases h
    | succ fuel =>
      rw [lexemesFrom] at h
      split at h
      · cases h
      · next kind n hlexeme =>
        obtain ⟨_, hrest, heq⟩ := map_eq_ok_iff.1 h
        cases heq
        exact ⟨kind, n, fuel, hlexeme, rfl, hrest⟩

/-- One lexeme is read, and then the rest. -/
theorem lexemesFrom_append {text rest : List Char}
    (h : lexeme? (text ++ rest) = some (kind, text.length)) (hne : text ≠ []) (fuel : Nat)
    (p : Place) : lexemesFrom (fuel + 1) p (text ++ rest) =
      (lexemesFrom fuel (p.advance text) rest).map fun r =>
        (⟨kind, text, p.position⟩ :: r.1, r.2) := by
  obtain ⟨c, tail, rfl⟩ := List.exists_cons_of_ne_nil hne
  rw [List.cons_append] at h ⊢
  rw [lexemesFrom, h]
  simp only [← List.cons_append, List.take_left, List.drop_left]

/-- A text that is one lexeme as a whole. -/
theorem lexemesFrom_whole {text : List Char} (h : lexeme? text = some (kind, text.length))
    (hne : text ≠ []) (fuel : Nat) (p : Place) :
    lexemesFrom (fuel + 1) p text = .ok ([⟨kind, text, p.position⟩], p.advance text) := by
  have hread : lexeme? (text ++ []) = some (kind, text.length) := by rw [List.append_nil, h]
  have hall := lexemesFrom_append hread hne fuel p
  rw [List.append_nil, lexemesFrom_nil] at hall
  exact hall

end TokenMacros.Source
