import TokenMacros.Proofs.Source.Lines

/-!
# Content and layout

The tokens of a source are its content, or newlines, indents and dedents put between the
content. The content is the tokens of its lexemes, in their order and at their places:

    tokenize source = .ok ts → ts.filter Token.isContent = xs.filterMap Lexeme.token?
                                   for the lexemes xs of the source
                                                           (exists_content)

Layout is told by kind: of the layout tokens, those in front of a line open or close
blocks (`isBlock_of_layoutBefore`), and newlines are all that is dropped at the end
(`filter_dropIdleNewlines`).
-/

namespace TokenMacros

/-- Does the token open or close a block? -/
def Token.isBlock (t : Token) : Bool := t.kind == .indent || t.kind == .dedent

/-- Is it no newline, indent or dedent? -/
def Token.isContent (t : Token) : Bool :=
  !(t.kind == .newline || t.kind == .indent || t.kind == .dedent)

namespace Source

/-- The token that a lexeme becomes, if it becomes one. -/
def Lexeme.token? (x : Lexeme) : Option Token :=
  x.kind.token?.map fun kind => ⟨kind, String.ofList x.text, x.position⟩

theorem isContent_eq (t : Token) : t.isContent = !(t.kind == .newline || t.isBlock) := by
  rw [Token.isContent, Token.isBlock, Bool.or_assoc]

theorem isContent_of_newline {t : Token} (h : t.kind = .newline) : t.isContent = false := by
  simp [isContent_eq, h]

theorem isContent_of_isBlock {t : Token} (h : t.isBlock = true) : t.isContent = false := by
  simp [isContent_eq, h]

theorem Word.isContent {t : Token} (ht : Word t) : t.isContent = true := by
  obtain @⟨lexemeKind, kind, text, hkind, -⟩ := ht
  cases lexemeKind <;> cases hkind <;> rfl

theorem isContent_of_token? {x : Lexeme} {t : Token} (h : x.token? = some t) :
    t.isContent = true := by
  obtain ⟨kind, hkind, rfl⟩ := Option.map_eq_some_iff.1 h
  cases hx : x.kind <;> rw [hx] at hkind <;> cases hkind <;> rfl

/-! ## Layout -/

theorem Shift.isBlock {level level' : Nat} {layout : List Token} (h : Shift level level' layout) :
    ∀ t ∈ layout, t.isBlock = true := by
  cases h with
  | deeper => simp [Token.isBlock, Token.indent]
  | back level' count =>
    intro t ht
    rw [List.eq_of_mem_replicate ht]
    rfl

theorem isBlock_of_layoutBefore {width : Nat} {p : Position} {indents indents' : List Nat}
    {layout : List Token} (h : layoutBefore width p indents = .ok (layout, indents')) :
    ∀ t ∈ layout, t.isBlock = true := by
  intro t ht
  exact (shift_of_layoutBefore h).isBlock t.bare (List.mem_map_of_mem ht)

theorem isContent_closing (s : LineState) (p : Position) :
    ∀ t ∈ s.closing p, t.isContent = false := by
  intro t ht
  rw [LineState.closing, List.mem_append, List.mem_map] at ht
  rcases ht with ht | ⟨-, -, rfl⟩
  · split_ifs at ht
    · rw [List.mem_singleton.1 ht]
      rfl
    · cases ht
  · rfl

/-- Dropping idle newlines leaves all other tokens. -/
theorem filter_dropIdleNewlines {p : Token → Bool}
    (hp : ∀ t : Token, t.kind = .newline → p t = false) (ts : List Token) :
    (dropIdleNewlines ts).filter p = ts.filter p := by
  induction ts with
  | nil => rfl
  | cons t ts ih =>
    rw [dropIdleNewlines]
    split_ifs with hidle
    · rw [ih, List.filter_cons_of_neg (by simp [hp t hidle.1])]
    · rw [List.filter_cons, List.filter_cons, ih]

/-! ## Content -/

theorem filter_isContent_of_step {s s' : LineState} {x : Lexeme} {new : List Token}
    (h : s.step x = .ok (new, s')) : new.filter Token.isContent = x.token?.toList := by
  rcases LineState.step_cases h with ⟨kind, layout, hkind, -, -, hlaid, rfl⟩ |
    ⟨hkind, -, rfl, -⟩ | ⟨hkind, -, rfl, -⟩
  · have hlayout : ∀ t ∈ layout, ¬ t.isContent = true := by
      intro t ht
      split_ifs at hlaid
      · simp [isContent_of_isBlock (isBlock_of_layoutBefore hlaid t ht)]
      · rw [Except.ok.injEq, Prod.mk.injEq] at hlaid
        rw [← hlaid.1] at ht
        cases ht
    have htoken : x.token? = some ⟨kind, String.ofList x.text, x.position⟩ := by
      rw [Lexeme.token?, hkind]
      rfl
    rw [List.filter_append, List.filter_eq_nil_iff.2 hlayout, htoken, List.nil_append,
      List.filter_cons_of_pos (isContent_of_token? htoken)]
    rfl
  · rw [Lexeme.token?, hkind]
    split_ifs <;> rfl
  · rw [Lexeme.token?, hkind]
    rfl

theorem content_of_tokens {p : Position} {xs : List Lexeme} {s : LineState} {ts : List Token}
    (h : s.tokens p xs = .ok ts) : ts.filter Token.isContent = xs.filterMap Lexeme.token? := by
  induction xs generalizing s ts with
  | nil =>
    cases h
    refine List.filter_eq_nil_iff.2 fun t ht => ?_
    simp [isContent_closing s p t ht]
  | cons x xs ih =>
    rw [LineState.tokens] at h
    split at h
    · cases h
    · next new s' hstep =>
      obtain ⟨ts, hts, rfl⟩ := map_eq_ok_iff.1 h
      rw [List.filter_append, filter_isContent_of_step hstep, ih hts, List.filterMap_cons]
      cases x.token? <;> rfl

/-- The stages of reading a source. -/
theorem tokenize_eq_ok_iff {source : String} {ts : List Token} : tokenize source = .ok ts ↔
    ∃ xs p raw, lexemes source.toList = .ok (xs, p) ∧
      LineState.tokens {} p.position xs = .ok raw ∧
      dropIdleNewlines raw = ts := by
  rw [tokenize]
  split
  · next e hlexemes => simp [hlexemes]
  · next xs p hlexemes =>
    rw [map_eq_ok_iff, hlexemes]
    constructor
    · rintro ⟨raw, hraw, rfl⟩
      exact ⟨xs, p, raw, rfl, hraw, rfl⟩
    · rintro ⟨_, _, raw, heq, hraw, rfl⟩
      cases heq
      exact ⟨raw, hraw, rfl⟩

/-- The content of a source is the tokens of its lexemes. -/
theorem exists_content {source : String} {ts : List Token} (h : tokenize source = .ok ts) :
    ∃ xs p, lexemes source.toList = .ok (xs, p) ∧
      ts.filter Token.isContent = xs.filterMap Lexeme.token? := by
  obtain ⟨xs, p, raw, hxs, hraw, rfl⟩ := tokenize_eq_ok_iff.1 h
  exact ⟨xs, p, hxs,
    by rw [filter_dropIdleNewlines fun _ => isContent_of_newline, content_of_tokens hraw]⟩

end Source

end TokenMacros
