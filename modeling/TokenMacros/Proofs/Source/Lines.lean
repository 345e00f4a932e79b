import TokenMacros.Proofs.Source.Lexeme

/-!
# Logical lines

The streams that a source text can give, before idle newlines are dropped. A stream
consists of logical lines; between two of them stand a newline and the tokens that lead
from one level of blocks to the next one, at the end a newline and a dedent for every
block that is still open:

    LineState.tokens {} p xs = .ok ts → Lines 0 (ts.map Token.bare)
                                                           (lines_of_tokens)

A line that leaves a bracket open is the last one, as no line break can end it.
-/

namespace TokenMacros.Source

/-! ## The grammar of streams -/

/-- A token with the text of a word of its kind, at no particular place. -/
inductive Word : Token → Prop
  | mk {lexemeKind : LexemeKind} {kind : Token.Kind} {text : List Char} :
      lexemeKind.token? = some kind → WordText lexemeKind text →
      Word ⟨kind, String.ofList text, {}⟩

/-- The tokens that lead from a level of blocks to another. -/
inductive Shift : Nat → Nat → List Token → Prop
  | deeper (level : Nat) : Shift level (level + 1) [.indent {}]
  | back (level count : Nat) : Shift (level + count) level (List.replicate count (.dedent {}))

/-- What stands behind a word of a line, at that level of blocks and with `depth` brackets open. -/
inductive Line : Nat → Nat → List Token → Prop
  | word {level depth : Nat} {t : Token} {ts : List Token} : Word t →
      Line level (LineState.depthAfter depth t.kind) ts → Line level depth (t :: ts)
  | next {level level' : Nat} {layout ts : List Token} {t : Token} : Shift level level' layout →
      Word t → Line level' (LineState.depthAfter 0 t.kind) ts →
      Line level 0 (.newline {} :: (layout ++ t :: ts))
  | last (level depth : Nat) :
      Line level depth (.newline {} :: List.replicate level (.dedent {}))

/-- What stands where a line may start, at that level of blocks. -/
inductive Lines (level : Nat) : List Token → Prop
  | done : Lines level (List.replicate level (.dedent {}))
  | line {level' : Nat} {layout ts : List Token} {t : Token} : Shift level level' layout →
      Word t → Line level' (LineState.depthAfter 0 t.kind) ts → Lines level (layout ++ t :: ts)

/-- A newline in front of lines ends the line before them. -/
theorem Lines.line_newline {level : Nat} {ts : List Token} (h : Lines level ts) :
    Line level 0 (.newline {} :: ts) := by
  cases h with
  | done => exact .last level 0
  | line hshift ht hline => exact .next hshift ht hline

/-! ## The lines of a source -/

theorem shift_of_closeBlocks {width : Nat} {p : Position} {indents indents' : List Nat}
    {layout : List Token} (h : closeBlocks width p indents = .ok (layout, indents')) :
    ∃ count, indents.length = indents'.length + count ∧
      layout.map Token.bare = List.replicate count (.dedent {}) := by
  induction indents generalizing layout with
  | nil =>
    rw [closeBlocks] at h
    split_ifs at h
    cases h
    exact ⟨0, rfl, rfl⟩
  | cons w ws ih =>
    rw [closeBlocks] at h
    split_ifs at h
    · obtain ⟨⟨layout', indents''⟩, hclose, heq⟩ := map_eq_ok_iff.1 h
      cases heq
      obtain ⟨count, hlen, hbare⟩ := ih hclose
      refine ⟨count + 1, by rw [List.length_cons, hlen]; rfl, ?_⟩
      rw [List.map_cons, hbare, List.replicate_succ]
      rfl
    · cases h
      exact ⟨0, rfl, rfl⟩

/-- The layout tokens in front of a line lead to the blocks that are open then. -/
theorem shift_of_layoutBefore {width : Nat} {p : Position} {indents indents' : List Nat}
    {layout : List Token} (h : layoutBefore width p indents = .ok (layout, indents')) :
    Shift indents.length indents'.length (layout.map Token.bare) := by
  rw [layoutBefore] at h
  split_ifs at h
  · cases h
    exact .deeper _
  · obtain ⟨count, hlen, hbare⟩ := shift_of_closeBlocks h
    rw [hlen, hbare]
    exact .back _ count

namespace LineState

/-- No token of the line has come yet. -/
structure AtStart (s : LineState) : Prop where
  lineStart : s.lineStart = true
  hasTokens : s.hasTokens = false
  depth : s.depth = 0

/-- A token of the line has come. -/
structure Within (s : LineState) : Prop where
  lineStart : s.lineStart = false
  hasTokens : s.hasTokens = true

theorem bare_closing (s : LineState) (p : Position) : (s.closing p).map Token.bare =
    (if s.hasTokens then [.newline {}] else []) ++
      List.replicate s.indents.length (.dedent {}) := by
  have hdedents : (s.indents.map fun _ => Token.dedent p).map Token.bare =
      List.replicate s.indents.length (.dedent {}) := by
    rw [List.map_map, ← List.map_const]
    rfl
  rw [closing, List.map_append, hdedents]
  split_ifs <;> rfl

/-- What a lexeme does: it becomes a token behind the layout of its line, it ends the line, or it
changes nothing but the width of the line. -/
theorem step_cases {s s' : LineState} {x : Lexeme} {new : List Token}
    (h : s.step x = .ok (new, s')) :
    (∃ kind layout, x.kind.token? = some kind ∧ s'.Within ∧
      s'.depth = depthAfter s.depth kind ∧
      (if s.lineStart then layoutBefore s.width x.position s.indents else .ok ([], s.indents)) =
        .ok (layout, s'.indents) ∧
      new = layout ++ [⟨kind, String.ofList x.text, x.position⟩]) ∨
    (x.kind = .lineBreak ∧ s.depth = 0 ∧
      new = (if s.hasTokens then [.newline x.position] else []) ∧
      s' = { s with lineStart := true, width := 0, hasTokens := false }) ∨
    (x.kind.token? = none ∧ ¬(x.kind = .lineBreak ∧ s.depth = 0) ∧ new = [] ∧
      ∃ width, s' = { s with width := width }) := by
  unfold step at h
  split at h
  · next kind hkind =>
    obtain ⟨⟨layout, indents⟩, hlaid, heq⟩ := map_eq_ok_iff.1 h
    cases heq
    exact .inl ⟨kind, layout, hkind, ⟨rfl, rfl⟩, rfl, hlaid, rfl⟩
  · next hnone =>
    split at h
    · next hbreak =>
      cases h
      exact .inr (.inl ⟨hbreak.1, hbreak.2, rfl, rfl⟩)
    · next hbreak =>
      split at h
      · cases h
        exact .inr (.inr ⟨hnone, hbreak, rfl, _, rfl⟩)
      · cases h
        exact .inr (.inr ⟨hnone, hbreak, rfl, s.width, rfl⟩)

end LineState

/-- The lexemes that become tokens are words. -/
def WordsOnly (xs : List Lexeme) : Prop :=
  ∀ x ∈ xs, x.kind.token?.isSome = true → WordText x.kind x.text

/-- The induction is on the lexemes; both states of a line are needed, as each leads to the
other. -/
theorem lines_of_tokens_of_state {p : Position} {xs : List Lexeme} (hxs : WordsOnly xs)
    {s : LineState} {ts : List Token} (h : s.tokens p xs = .ok ts) :
    (s.AtStart → Lines s.indents.length (ts.map Token.bare)) ∧
      (s.Within → Line s.indents.length s.depth (ts.map Token.bare)) := by
  induction xs generalizing s ts with
  | nil =>
    cases h
    rw [LineState.bare_closing]
    constructor
    · rintro ⟨-, htokens, -⟩
      rw [htokens]
      exact .done
    · rintro ⟨-, htokens⟩
      rw [htokens]
      exact .last _ _
  | cons x xs ih =>
    rw [WordsOnly, List.forall_mem_cons] at hxs
    rw [LineState.tokens] at h
    split at h
    · cases h
    · next new s' hstep =>
      obtain ⟨ts, hts, rfl⟩ := map_eq_ok_iff.1 h
      obtain ⟨hlines, hline⟩ := ih hxs.2 hts
      rw [List.map_append]
      rcases LineState.step_cases hstep with ⟨kind, layout, hkind, hwithin, hdepth, hlaid, rfl⟩ |
        ⟨-, hdepth, rfl, rfl⟩ | ⟨-, -, rfl, width, rfl⟩
      · -- a word: the rest of its line follows
        have hword : Word ⟨kind, String.ofList x.text, {}⟩ :=
          .mk hkind (hxs.1 (by rw [hkind]; rfl))
        have hrest := hline hwithin
        rw [hdepth] at hrest
        rw [List.map_append, List.append_assoc, List.map_singleton, List.singleton_append]
        constructor
        · rintro ⟨hstart, -, hzero⟩
          rw [if_pos hstart] at hlaid
          rw [hzero] at hrest
          exact .line (shift_of_layoutBefore hlaid) hword hrest
        · rintro ⟨hstart, -⟩
          rw [if_neg (by simp [hstart]), Except.ok.injEq, Prod.mk.injEq] at hlaid
          obtain ⟨rfl, hindents⟩ := hlaid
          rw [← hindents] at hrest
          exact .word hword hrest
      · -- a line break: a line may start
        have hrest := hlines ⟨rfl, rfl, hdepth⟩
        constructor
        · rintro ⟨-, htokens, -⟩
          rw [htokens]
          exact hrest
        · rintro ⟨-, htokens⟩
          rw [htokens, hdepth]
          exact hrest.line_newline
      · constructor
        · rintro ⟨hstart, htokens, hdepth⟩
          exact hlines ⟨hstart, htokens, hdepth⟩
        · rintro ⟨hstart, htokens⟩
          exact hline ⟨hstart, htokens⟩

/-- The tokens of a source are logical lines. -/
theorem lines_of_tokens {p : Position} {xs : List Lexeme} (hxs : WordsOnly xs) {ts : List Token}
    (h : LineState.tokens {} p xs = .ok ts) : Lines 0 (ts.map Token.bare) :=
  (lines_of_tokens_of_state hxs h).1 ⟨rfl, rfl, rfl⟩

theorem wordsOnly_of_lexemesFrom {fuel : Nat} {p q : Place} {cs : List Char}
    {xs : List Lexeme} (h : lexemesFrom fuel p cs = .ok (xs, q)) : WordsOnly xs := by
  induction xs generalizing fuel p cs with
  | nil => exact fun _ hx => absurd hx List.not_mem_nil
  | cons x xs ih =>
    obtain ⟨kind, n, fuel', hlexeme, rfl, hrest⟩ := lexemesFrom_cons h
    exact List.forall_mem_cons.2 ⟨wordText_of_lexeme? hlexeme, ih hrest⟩

end TokenMacros.Source
