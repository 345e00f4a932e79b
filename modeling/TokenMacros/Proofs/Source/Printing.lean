import TokenMacros.Proofs.Source.Lines
import TokenMacros.Token.Printing

/-!
# Reading what is printed

Printing the tokens of a source and reading the printed text gives the same tokens:

    tokenize source = .ok ts → tokenize (print ts) = .ok ts' for a ts' the same as ts
                                                           (tokenize_print)

The proof follows the logical lines of the source (`Lines`). Each word is printed behind
a space or the blanks of its line, and in front of a space, a line feed or the end, so
it is read as it was (`WordText`); the blanks of a line are four for every open block,
which opens and closes the same blocks again (`layoutBefore_indentsAt`).
-/

namespace TokenMacros.Source

/-! ## Tokens at no particular place -/

theorem printFrom_map_bare (last : Option Char) (level : Nat) (fresh : Bool) (ts : List Token) :
    printFrom last level fresh (ts.map Token.bare) = printFrom last level fresh ts := by
  induction ts generalizing last level fresh with
  | nil => rfl
  | cons t ts ih =>
    rw [List.map_cons, printFrom, printFrom]
    simp only [Token.bare, ih]

theorem dropIdleNewlines_map_bare (ts : List Token) :
    dropIdleNewlines (ts.map Token.bare) = (dropIdleNewlines ts).map Token.bare := by
  induction ts with
  | nil => rfl
  | cons t ts ih =>
    have hidle : ((ts.map Token.bare).head?.all fun u => u.kind == .indent || u.kind == .dedent) =
        ts.head?.all fun u => u.kind == .indent || u.kind == .dedent := by
      cases ts <;> rfl
    have hkind : t.bare.kind = t.kind := rfl
    rw [List.map_cons, dropIdleNewlines, dropIdleNewlines, hidle, hkind, ih]
    split_ifs <;> rfl

/-! ## Printing lines -/

variable {level level' depth : Nat} {last : Option Char} {layout ts : List Token} {t : Token}

theorem Word.kind_ne (ht : Word t) :
    t.kind ≠ .newline ∧ t.kind ≠ .indent ∧ t.kind ≠ .dedent := by
  obtain @⟨lexemeKind, kind, text, hkind, -⟩ := ht
  cases lexemeKind <;> cases hkind <;> simp

/-- A line has begun: what is printed last is neither nothing nor a line feed. -/
structure OnLine (last : Option Char) : Prop where
  ne_none : last ≠ none
  ne_break : last ≠ some '\n'

theorem Word.onLine (ht : Word t) : OnLine t.text.toList.getLast? := by
  obtain ⟨-, htext⟩ := ht
  rw [String.toList_ofList]
  exact ⟨by simpa using htext.ne_nil, htext.noBreak⟩

/-- A word stands behind a space or the blanks of its line. -/
theorem Word.printFrom_eq (ht : Word t) (last : Option Char) (level : Nat) (fresh : Bool)
    (ts : List Token) : printFrom last level fresh (t :: ts) =
      (if fresh then List.replicate (4 * level) ' ' else [' ']) ++
        (t.text.toList ++ printFrom t.text.toList.getLast? level false ts) := by
  obtain ⟨hnewline, hindent, hdedent⟩ := ht.kind_ne
  obtain ⟨c, hc⟩ := Option.ne_none_iff_exists'.1 ht.onLine.ne_none
  rw [printFrom]
  split
  · contradiction
  · contradiction
  · contradiction
  · simp only [List.getLast?_append, hc, Option.some_or, List.append_assoc]

/-- The level of blocks behind a token. -/
def levelAfter (level : Nat) : Token.Kind → Nat
  | .indent => level + 1
  | .dedent => level - 1
  | _ => level

/-- On a line, a layout token prints a line feed. -/
theorem printFrom_layout (hlast : OnLine last)
    (ht : t.kind = .newline ∨ t.kind = .indent ∨ t.kind = .dedent) (level : Nat) (fresh : Bool)
    (ts : List Token) : printFrom last level fresh (t :: ts) =
      '\n' :: printFrom (some '\n') (levelAfter level t.kind) true ts := by
  obtain ⟨c, rfl⟩ := Option.ne_none_iff_exists'.1 hlast.ne_none
  have hc := hlast.ne_break
  rcases ht with ht | ht | ht <;> simp [printFrom, levelAfter, ht, hc]

/-- Where a line may start, layout prints nothing. -/
theorem printFrom_shift (hshift : Shift level level' layout)
    (hlast : last = none ∨ last = some '\n') (ts : List Token) :
    printFrom last level true (layout ++ ts) = printFrom last level' true ts := by
  have hsame : (last.map fun _ => '\n') = last := by
    rcases hlast with rfl | rfl <;> rfl
  cases hshift with
  | deeper => simp [printFrom, Token.indent, hlast, hsame]
  | back level' count =>
    induction count with
    | zero => rfl
    | succ count ih =>
      rw [List.replicate_succ, List.cons_append]
      simpa [printFrom, Token.dedent, hlast, hsame] using ih

theorem dropIdleNewlines_of_ne (ht : t.kind ≠ .newline) (ts : List Token) :
    dropIdleNewlines (t :: ts) = t :: dropIdleNewlines ts := by
  simp [dropIdleNewlines, ht]

theorem dropIdleNewlines_layout (hshift : Shift level level' layout) (ts : List Token) :
    dropIdleNewlines (layout ++ ts) = layout ++ dropIdleNewlines ts := by
  cases hshift with
  | deeper => exact dropIdleNewlines_of_ne (by simp [Token.indent]) ts
  | back level' count =>
    induction count with
    | zero => rfl
    | succ count ih =>
      rw [List.replicate_succ, List.cons_append,
        dropIdleNewlines_of_ne (by simp [Token.dedent]), ih]
      rfl

theorem dropIdleNewlines_idle (ht : t.kind = .indent ∨ t.kind = .dedent) (ts : List Token) :
    dropIdleNewlines (.newline {} :: t :: ts) = dropIdleNewlines (t :: ts) := by
  rw [dropIdleNewlines]
  simp [Token.newline, ht]

theorem Word.dropIdleNewlines_newline (ht : Word t) (ts : List Token) :
    dropIdleNewlines (.newline {} :: t :: ts) = .newline {} :: t :: dropIdleNewlines ts := by
  obtain ⟨hnewline, hindent, hdedent⟩ := ht.kind_ne
  rw [dropIdleNewlines, dropIdleNewlines_of_ne hnewline]
  simp [hindent, hdedent]

/-- Behind a line, the newline and the layout of the next line print one line feed. -/
theorem printFrom_next (hlast : OnLine last) (hshift : Shift level level' layout) (ht : Word t)
    (ts : List Token) :
    printFrom last level false (dropIdleNewlines (.newline {} :: (layout ++ t :: ts))) =
      '\n' :: printFrom (some '\n') level' true (t :: dropIdleNewlines ts) := by
  have hlayout := dropIdleNewlines_layout hshift (t :: ts)
  rw [dropIdleNewlines_of_ne ht.kind_ne.1] at hlayout
  cases hshift with
  | deeper =>
    rw [List.singleton_append, dropIdleNewlines_idle (.inl rfl), ← List.singleton_append, hlayout,
      List.singleton_append, printFrom_layout hlast (.inr (.inl rfl))]
    rfl
  | back level' count =>
    cases count with
    | zero =>
      rw [List.replicate_zero, List.nil_append, ht.dropIdleNewlines_newline,
        printFrom_layout hlast (.inl rfl)]
      rfl
    | succ count =>
      rw [List.replicate_succ, List.cons_append] at hlayout ⊢
      rw [dropIdleNewlines_idle (.inr rfl), hlayout, List.cons_append,
        printFrom_layout hlast (.inr (.inr rfl))]
      exact congrArg _ (printFrom_shift (.back level' count) (.inr rfl) _)

/-- Behind the last line, the dedents print one line feed if there are any. -/
theorem printFrom_last (hlast : OnLine last) (level : Nat) :
    printFrom last level false
        (dropIdleNewlines (.newline {} :: List.replicate level (.dedent {}))) =
      if level = 0 then [] else ['\n'] := by
  have hdrop : dropIdleNewlines (List.replicate level (.dedent {})) =
      List.replicate level (.dedent {}) := by
    simpa [dropIdleNewlines] using dropIdleNewlines_layout (.back 0 level) []
  cases level with
  | zero => rfl
  | succ level =>
    have hrest : printFrom (some '\n') level true (List.replicate level (.dedent {})) = [] := by
      simpa [printFrom] using printFrom_shift (.back 0 level) (.inr rfl) []
    rw [List.replicate_succ] at hdrop ⊢
    rw [dropIdleNewlines_idle (.inr rfl), hdrop, printFrom_layout hlast (.inr (.inr rfl)),
      if_neg (Nat.succ_ne_zero level)]
    exact congrArg _ hrest

/-- What is printed behind a word sets it apart. -/
theorem separated_printFrom (hlast : OnLine last) (level : Nat) (ts : List Token) :
    Separated (printFrom last level false ts) := by
  cases ts with
  | nil => simp [printFrom, Separated]
  | cons t ts =>
    by_cases ht : t.kind = .newline ∨ t.kind = .indent ∨ t.kind = .dedent
    · rw [printFrom_layout hlast ht]
      simp [Separated]
    · rw [printFrom]
      split <;> simp_all [Separated]

/-! ## Reading lines -/

/-- From that state, the text is read as these tokens, wherever they stand. -/
def Rereads (s : LineState) (cs : List Char) (ts : List Token) : Prop :=
  ∀ fuel p, cs.length ≤ fuel → ∃ xs q out, lexemesFrom fuel p cs = .ok (xs, q) ∧
    s.tokens q.position xs = .ok out ∧ out.map Token.bare = ts

variable {s s' : LineState} {cs text : List Char} {kind : LexemeKind}

theorem rereads_nil (s : LineState) : Rereads s []
    ((if s.hasTokens then [.newline {}] else []) ++
      List.replicate s.indents.length (.dedent {})) := by
  intro fuel p _
  exact ⟨[], p, s.closing p.position, lexemesFrom_nil fuel p, rfl, s.bare_closing p.position⟩

/-- One lexeme, and then the rest. -/
theorem Rereads.cons (text : List Char) (front : List Token)
    (hlexeme : lexeme? (text ++ cs) = some (kind, text.length)) (hne : text ≠ [])
    (hstep : ∀ p, ∃ new, s.step ⟨kind, text, p⟩ = .ok (new, s') ∧ new.map Token.bare = front)
    (h : Rereads s' cs ts) : Rereads s (text ++ cs) (front ++ ts) := by
  intro fuel p hfuel
  have hpos : 0 < text.length := List.length_pos_iff.2 hne
  rw [List.length_append] at hfuel
  cases fuel with
  | zero => omega
  | succ fuel =>
    obtain ⟨xs, q, out, hxs, hout, hbare⟩ := h fuel (p.advance text) (by omega)
    obtain ⟨new, hnew, hfront⟩ := hstep p.position
    refine ⟨⟨kind, text, p.position⟩ :: xs, q, new ++ out, ?_, ?_, ?_⟩
    · rw [lexemesFrom_append hlexeme hne, hxs]
      rfl
    · rw [LineState.tokens, hnew]
      simp only [hout]
      rfl
    · rw [List.map_append, hfront, hbare]

/-- Blanks in front of anything else. -/
theorem lexeme?_blanks {c : Char} (hc : isBlank c = false) {count : Nat} (hcount : count ≠ 0)
    (cs : List Char) : lexeme? (List.replicate count ' ' ++ c :: cs) =
      some (.blank, (List.replicate count ' ').length) := by
  obtain ⟨count, rfl⟩ := Nat.exists_eq_succ_of_ne_zero hcount
  have hrun : run isBlank (List.replicate (count + 1) ' ' ++ c :: cs) = some (count + 1) := by
    have htake : (List.replicate (count + 1) ' ' ++ c :: cs).takeWhile isBlank =
        List.replicate (count + 1) ' ' := by
      rw [List.takeWhile_append_of_pos (by simp [isBlank]),
        List.takeWhile_cons_of_neg (by simp [hc]), List.append_nil]
    rw [run, htake]
    simp
  rw [lexeme?_eq, hrun, List.length_replicate]
  rfl

theorem WordText.exists_head (h : WordText kind text) (hk : kind.token?.isSome = true) :
    ∃ c tail, text = c :: tail ∧ isBlank c = false := by
  obtain ⟨c, tail, rfl⟩ := List.exists_cons_of_ne_nil h.ne_nil
  have hreads := h.reads (b := []) (by simp [Separated])
  have hc := not_isLayout_of_lexeme? hreads hk
  simp only [isLayout, Bool.or_eq_false_iff] at hc
  exact ⟨c, tail, rfl, hc.1.1.2⟩

/-- The widths of the blocks that are open at a level. -/
def indentsAt : Nat → List Nat
  | 0 => []
  | level + 1 => 4 * (level + 1) :: indentsAt level

theorem length_indentsAt (level : Nat) : (indentsAt level).length = level := by
  induction level with
  | zero => rfl
  | succ level ih => rw [indentsAt, List.length_cons, ih]

theorem closeBlocks_indentsAt (level count : Nat) (p : Position) :
    closeBlocks (4 * level) p (indentsAt (level + count)) =
      .ok (List.replicate count (.dedent p), indentsAt level) := by
  induction count with
  | zero =>
    cases level with
    | zero => rfl
    | succ level =>
      rw [Nat.add_zero, indentsAt, closeBlocks, if_neg (Nat.lt_irrefl _), if_pos rfl]
      rfl
  | succ count ih =>
    rw [← Nat.add_assoc, indentsAt, closeBlocks, if_pos (by omega), ih]
    rfl

/-- The blanks of a line bring back its layout. -/
theorem layoutBefore_indentsAt (hshift : Shift level level' layout) (p : Position) :
    ∃ layout', layoutBefore (4 * level') p (indentsAt level) = .ok (layout', indentsAt level') ∧
      layout'.map Token.bare = layout := by
  have hhead : ∀ level, (indentsAt level).headD 0 = 4 * level := by
    intro level
    cases level <;> rfl
  rw [layoutBefore, hhead]
  cases hshift with
  | deeper =>
    rw [if_pos (by omega)]
    exact ⟨_, rfl, rfl⟩
  | back level' count =>
    rw [if_neg (by omega), closeBlocks_indentsAt]
    exact ⟨_, rfl, by simp [Token.bare, Token.dedent]⟩

namespace LineState

/-- The start of a line at a level, behind blanks of that width. -/
def startAt (level width : Nat) : LineState := { indents := indentsAt level, width := width }

/-- A line at a level, with that many brackets open. -/
def lineAt (level depth width : Nat) : LineState :=
  { indents := indentsAt level, depth := depth, lineStart := false, width := width,
    hasTokens := true }

theorem step_lineAt {kind' : Token.Kind} (hk : kind.token? = some kind') (text : List Char)
    (level depth width : Nat) (p : Position) :
    (lineAt level depth width).step ⟨kind, text, p⟩ =
      .ok ([⟨kind', String.ofList text, p⟩], lineAt level (depthAfter depth kind') width) := by
  simp only [step, hk]
  rfl

theorem step_startAt {kind' : Token.Kind} (hk : kind.token? = some kind') (text : List Char)
    {layout' : List Token} {p : Position}
    (hlaid : layoutBefore (4 * level') p (indentsAt level) = .ok (layout', indentsAt level')) :
    (startAt level (4 * level')).step ⟨kind, text, p⟩ =
      .ok (layout' ++ [⟨kind', String.ofList text, p⟩],
        lineAt level' (depthAfter 0 kind') (4 * level')) := by
  simp only [step, hk, startAt, if_true, hlaid]
  rfl

theorem step_blanks (level count : Nat) (p : Position) :
    (startAt level 0).step ⟨.blank, List.replicate count ' ', p⟩ =
      .ok ([], startAt level count) := by
  have hwidth : blankWidth (List.replicate count ' ') = count := by
    induction count with
    | zero => rfl
    | succ count ih =>
      rw [blankWidth, List.replicate_succ', List.foldl_append, ← blankWidth, ih]
      rfl
  rw [startAt, startAt]
  simp [step, LexemeKind.token?, hwidth]

end LineState

open LineState

/-- A word behind a space continues its line. -/
theorem Word.rereads_lineAt {width : Nat} (ht : Word t) (hcs : Separated cs)
    (h : Rereads (lineAt level (depthAfter depth t.kind) width) cs ts) :
    Rereads (lineAt level depth width) (' ' :: (t.text.toList ++ cs)) (t :: ts) := by
  obtain @⟨lexemeKind, kind, text, hkind, htext⟩ := ht
  rw [String.toList_ofList]
  have hword : Rereads (lineAt level depth width) (text ++ cs)
      ([⟨kind, String.ofList text, {}⟩] ++ ts) :=
    h.cons text _ (htext.reads hcs) htext.ne_nil
      fun p => ⟨_, step_lineAt hkind text level depth width p, rfl⟩
  obtain ⟨c, tail, rfl, hc⟩ := htext.exists_head (by rw [hkind]; rfl)
  exact hword.cons [' '] [] (lexeme?_blanks hc Nat.one_ne_zero (tail ++ cs)) (by simp)
    fun p => ⟨[], rfl, rfl⟩

/-- The first word of a line brings back the layout in front of it. -/
theorem Word.rereads_startAt (hshift : Shift level level' layout) (ht : Word t)
    (hcs : Separated cs)
    (h : Rereads (lineAt level' (depthAfter 0 t.kind) (4 * level')) cs ts) :
    Rereads (startAt level 0) (List.replicate (4 * level') ' ' ++ (t.text.toList ++ cs))
      (layout ++ t :: ts) := by
  obtain @⟨lexemeKind, kind, text, hkind, htext⟩ := ht
  rw [String.toList_ofList, ← List.singleton_append, ← List.append_assoc layout]
  have hword : Rereads (startAt level (4 * level')) (text ++ cs)
      (layout ++ [⟨kind, String.ofList text, {}⟩] ++ ts) := by
    refine h.cons text _ (htext.reads hcs) htext.ne_nil fun p => ?_
    obtain ⟨layout', hlaid, rfl⟩ := layoutBefore_indentsAt hshift p
    exact ⟨_, step_startAt hkind text hlaid, List.map_append⟩
  cases level' with
  | zero => exact hword
  | succ level' =>
    obtain ⟨c, tail, rfl, hc⟩ := htext.exists_head (by rw [hkind]; rfl)
    exact hword.cons (List.replicate (4 * (level' + 1)) ' ') []
      (lexeme?_blanks hc (by simp) (tail ++ cs)) (by simp)
      fun p => ⟨[], step_blanks level _ p, rfl⟩

/-- A line feed outside brackets ends the line. -/
theorem rereads_lineFeed {width : Nat} (h : Rereads (startAt level 0) cs ts) :
    Rereads (lineAt level 0 width) ('\n' :: cs) (.newline {} :: ts) :=
  h.cons ['\n'] [.newline {}] rfl (by simp) fun p => ⟨[.newline p], rfl, rfl⟩

theorem rereads_lineFeed_of_depth {width : Nat}
    (h : Rereads (lineAt level (depth + 1) width) cs ts) :
    Rereads (lineAt level (depth + 1) width) ('\n' :: cs) ts :=
  h.cons ['\n'] [] rfl (by simp) fun p => ⟨[], rfl, rfl⟩

/-! ## Line by line -/

/-- The induction is on the line; `last` and `width` are those of the word in front of what is
left of it, and no matter for what is read. -/
theorem Line.rereads_print (h : Line level depth ts) (hlast : OnLine last) (width : Nat) :
    Rereads (lineAt level depth width) (printFrom last level false (dropIdleNewlines ts)) ts := by
  induction h generalizing last width with
  | word ht _ ih =>
    rw [dropIdleNewlines_of_ne ht.kind_ne.1, ht.printFrom_eq]
    exact ht.rereads_lineAt (separated_printFrom ht.onLine _ _) (ih ht.onLine width)
  | next hshift ht _ ih =>
    rw [printFrom_next hlast hshift ht, ht.printFrom_eq]
    exact rereads_lineFeed
      (ht.rereads_startAt hshift (separated_printFrom ht.onLine _ _) (ih ht.onLine _))
  | last level depth =>
    rw [printFrom_last hlast]
    have hend : Rereads (lineAt level depth width) []
        (.newline {} :: List.replicate level (.dedent {})) := by
      simpa [lineAt, length_indentsAt] using rereads_nil (lineAt level depth width)
    split_ifs with hlevel
    · exact hend
    · cases depth with
      | zero =>
        refine rereads_lineFeed ?_
        simpa [startAt, length_indentsAt] using rereads_nil (startAt level 0)
      | succ depth => exact rereads_lineFeed_of_depth hend

theorem Lines.rereads_print (h : Lines 0 ts) :
    Rereads {} (printFrom none 0 true (dropIdleNewlines ts)) ts := by
  cases h with
  | done => exact rereads_nil {}
  | line hshift ht hline =>
    rw [dropIdleNewlines_layout hshift, dropIdleNewlines_of_ne ht.kind_ne.1,
      printFrom_shift hshift (.inl rfl), ht.printFrom_eq]
    exact ht.rereads_startAt hshift (separated_printFrom ht.onLine _ _)
      (hline.rereads_print ht.onLine _)

end Source

open Source

/-- A source and the text that its tokens are printed as have the same tokens. -/
theorem tokenize_print {source : String} {ts : List Token} (h : tokenize source = .ok ts) :
    ∃ ts', tokenize (print ts) = .ok ts' ∧ sameTokens ts' ts = true := by
  rw [tokenize] at h
  split at h
  · cases h
  · next xs p hlexemes =>
    obtain ⟨raw, hraw, rfl⟩ := map_eq_ok_iff.1 h
    have hlines : Lines 0 (raw.map Token.bare) :=
      lines_of_tokens (wordsOnly_of_lexemesFrom hlexemes) hraw
    obtain ⟨ys, q, raw', hys, hraw', hbare⟩ :=
      hlines.rereads_print _ Place.start (Nat.le_refl _)
    rw [dropIdleNewlines_map_bare, printFrom_map_bare] at hys
    refine ⟨dropIdleNewlines raw', ?_, ?_⟩
    · rw [tokenize, print, String.toList_ofList, lexemes, hys]
      simp only [hraw']
      rfl
    · rw [sameTokens_iff, ← dropIdleNewlines_map_bare, hbare, dropIdleNewlines_map_bare]

/-! ## A ragged source -/

/-- A tab, a comment, a continued line, a literal of two lines, a number that a name follows at
once, a stray closer and an opener that nothing closes. -/
def raggedSource : String :=
  "if a: # note\n\tb = 0x1for \\\n  c\n\n\t  rb'''x\n\\''''\ny ] $(1.5e3k\n   z\n"

theorem tokenize_print_ragged : ∃ ts ts', tokenize raggedSource = .ok ts ∧
    print ts = "if a :\n    b = 0x1f or c\n        rb'''x\n\\''''\ny ] $ ( 1.5e3 k z" ∧
      tokenize (print ts) = .ok ts' ∧ sameTokens ts' ts = true := by
  have hprint : (tokenize raggedSource).map print =
      .ok "if a :\n    b = 0x1f or c\n        rb'''x\n\\''''\ny ] $ ( 1.5e3 k z" := rfl
  obtain ⟨ts, hts, htext⟩ := map_eq_ok_iff.1 hprint
  obtain ⟨ts', hread, hsame⟩ := tokenize_print hts
  exact ⟨ts, ts', hts, htext, hread, hsame⟩

end TokenMacros
