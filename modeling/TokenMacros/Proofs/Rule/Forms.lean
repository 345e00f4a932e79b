import TokenMacros.Proofs.Token.Tree
import TokenMacros.Rule.Spelling

/-!
# The forms behind a dollar sign

How the parts of a form are written, each against the reader that accepts it: the words
for fragments, the symbols of escapes and quantifiers, groups, separators and rows of
variants.

    splitGroup "(" ts = some (body, rest) ↔
      ∃ group, Enclosed "(" ")" body group ∧ ts = group ++ rest    (splitGroup_paren_iff)
    variantsFrom ts.length ts = some parts ↔ VariantRow parts ts   (variantsFrom_eq_some_iff)

A separator and the quantifier behind it are read as they are written
(`exists_written_of_repetitionTail?`, `exists_repetitionTail?_of_written`).
-/

namespace TokenMacros

/-! ## Words and symbols -/

/-- The words for a fragment. -/
def Fragment.words : Fragment → List String
  | .token => ["token"]
  | .name => ["name"]
  | .operator => ["op"]
  | .number => ["number"]
  | .string => ["string"]
  | .tree => ["tt"]
  | .null => ["null", "empty"]

/-- The operator for a quantifier. -/
def Quantifier.symbol : Quantifier → String
  | .optional => "?"
  | .any => "*"
  | .atLeastOne => "+"

/-- Does the token make that escape behind a dollar sign? -/
def Escape.IsSymbol (t : Token) : Escape → Prop
  | .dollar => t.kind = .dollar
  | .indent => t.isOperator ">" = true
  | .dedent => t.isOperator "<" = true
  | .newline => t.isOperator "^" = true

theorem Fragment.ofWord?_eq_some_iff {word : String} {f : Fragment} :
    Fragment.ofWord? word = some f ↔ word ∈ f.words := by
  unfold Fragment.ofWord?
  constructor
  · intro h
    split_ifs at h <;> cases h <;> simp_all [Fragment.words]
  · intro h
    cases f with
    | null =>
      obtain rfl | rfl : word = "null" ∨ word = "empty" := by simpa [Fragment.words] using h
      · rfl
      · rfl
    | _ => simp_all [Fragment.words]

theorem Quantifier.ofToken?_eq_some_iff {t : Token} {q : Quantifier} :
    Quantifier.ofToken? t = some q ↔ t.isOperator q.symbol = true := by
  unfold Quantifier.ofToken?
  cases q <;> split_ifs <;> simp_all [Quantifier.symbol, Token.isOperator_iff]

theorem Escape.ofSymbol?_eq_some_iff {t : Token} {e : Escape} :
    Escape.ofSymbol? t = some e ↔ e.IsSymbol t := by
  unfold Escape.ofSymbol?
  cases e <;> split_ifs <;> simp_all [Escape.IsSymbol, Token.isOperator_iff]

variable {ts body rest group row : List Token} {t dollar mode : Token} {q : Quantifier}

/-! ## Groups -/

/-- Balanced tokens between the opener and the closer of these texts. -/
inductive Enclosed (opening closing : String) (body : List Token) : List Token → Prop
  | mk {opener closer : Token} : opener.isOpener opening = true → Balanced body →
      closer.isCloser closing = true → Enclosed opening closing body (opener :: body ++ [closer])

/-- Groups in parentheses, with bars between them. -/
inductive VariantRow : List (List Token) → List Token → Prop
  | last {body group : List Token} : Enclosed "(" ")" body group → VariantRow [body] group
  | more {body group row : List Token} {bar : Token} {parts : List (List Token)} :
      Enclosed "(" ")" body group → bar.isOperator "|" = true → VariantRow parts row →
      VariantRow (body :: parts) (group ++ bar :: row)

theorem Enclosed.starts {opening closing : String} (h : Enclosed opening closing body group) :
    ∃ t tail, group = t :: tail ∧ t.isOpener opening = true := by
  obtain ⟨ho, -, -⟩ := h
  exact ⟨_, _, rfl, ho⟩

/-- A group in parentheses is a tree. -/
theorem Enclosed.tokenTree (h : Enclosed "(" ")" body group) : TokenTree group := by
  obtain ⟨hopener, hbody, hcloser⟩ := h
  exact .group (role_of_isOpener_paren hopener) (closes_paren_iff.2 hcloser) hbody

theorem Enclosed.interior_eq {opening closing : String} (h : Enclosed opening closing body group) :
    interior group = body := by
  obtain ⟨-, -, -⟩ := h
  exact interior_group _ _ _

theorem Enclosed.length_eq {opening closing : String} (h : Enclosed opening closing body group) :
    group.length = body.length + 2 := by
  obtain ⟨-, -, -⟩ := h
  simp

theorem splitGroup_paren_iff : splitGroup "(" ts = some (body, rest) ↔
    ∃ group, Enclosed "(" ")" body group ∧ ts = group ++ rest := by
  rw [splitGroup_eq_some_iff role_of_isOpener_paren closes_paren_iff]
  constructor
  · rintro ⟨opener, closer, ho, hc, hbody, rfl⟩
    exact ⟨_, .mk ho hbody hc, by simp⟩
  · rintro ⟨_, ⟨ho, hbody, hc⟩, rfl⟩
    exact ⟨_, _, ho, hc, hbody, by simp⟩

theorem splitGroup_bracket_iff : splitGroup "[" ts = some (body, rest) ↔
    ∃ group, Enclosed "[" "]" body group ∧ ts = group ++ rest := by
  rw [splitGroup_eq_some_iff role_of_isOpener_bracket closes_bracket_iff]
  constructor
  · rintro ⟨opener, closer, ho, hc, hbody, rfl⟩
    exact ⟨_, .mk ho hbody hc, by simp⟩
  · rintro ⟨_, ⟨ho, hbody, hc⟩, rfl⟩
    exact ⟨_, _, ho, hc, hbody, by simp⟩

theorem Enclosed.splitGroup_paren (h : Enclosed "(" ")" body group) (rest : List Token) :
    splitGroup "(" (group ++ rest) = some (body, rest) :=
  splitGroup_paren_iff.2 ⟨group, h, rfl⟩

theorem Enclosed.splitGroup_bracket (h : Enclosed "[" "]" body group) (rest : List Token) :
    splitGroup "[" (group ++ rest) = some (body, rest) :=
  splitGroup_bracket_iff.2 ⟨group, h, rfl⟩

theorem splitGroup_of_ne {text : String} (h : t.isOpener text = false) :
    splitGroup text (t :: ts) = none := by
  simp [splitGroup, h]

theorem VariantRow.length_lt {parts : List (List Token)} (h : VariantRow parts row) :
    ∀ part ∈ parts, part.length < row.length := by
  induction h with
  | last hg =>
    have := hg.length_eq
    simp only [List.mem_singleton, forall_eq]
    omega
  | more hg _ _ ih =>
    have := hg.length_eq
    simp only [List.forall_mem_cons, List.length_append, List.length_cons]
    refine ⟨by omega, fun part hpart => ?_⟩
    have := ih part hpart
    omega

theorem VariantRow.starts {parts : List (List Token)} (h : VariantRow parts row) :
    ∃ t tail, row = t :: tail ∧ t.isOpener "(" = true := by
  cases h with
  | last hg => exact hg.starts
  | more hg _ _ =>
    obtain ⟨t, tail, rfl, ht⟩ := hg.starts
    exact ⟨t, _, rfl, ht⟩

theorem variantRow_of_variantsFrom {fuel : Nat} {parts : List (List Token)}
    (h : variantsFrom fuel ts = some parts) : VariantRow parts ts := by
  induction fuel generalizing ts parts with
  | zero => cases h
  | succ fuel ih =>
    rw [variantsFrom] at h
    split at h
    · cases h
    · next body hbody =>
      cases h
      obtain ⟨group, hgroup, rfl⟩ := splitGroup_paren_iff.1 hbody
      rw [List.append_nil]
      exact .last hgroup
    · next body bar rest hbody =>
      obtain ⟨group, hgroup, rfl⟩ := splitGroup_paren_iff.1 hbody
      split at h
      · next hbar =>
        obtain ⟨parts, hparts, rfl⟩ := Option.map_eq_some_iff.1 h
        exact .more hgroup hbar (ih hparts)
      · cases h

theorem VariantRow.variantsFrom_eq {parts : List (List Token)} (h : VariantRow parts row)
    {fuel : Nat} (hfuel : row.length ≤ fuel) : variantsFrom fuel row = some parts := by
  induction h generalizing fuel with
  | @last body group hg =>
    have hsplit := hg.splitGroup_paren []
    rw [List.append_nil] at hsplit
    cases fuel with
    | zero =>
      have := hg.length_eq
      omega
    | succ fuel =>
      rw [variantsFrom, hsplit]
  | @more body group row bar parts hg hbar hrow ih =>
    cases fuel with
    | zero => simp at hfuel
    | succ fuel =>
      have hlen : row.length ≤ fuel := by
        simp only [List.length_append, List.length_cons] at hfuel
        omega
      rw [variantsFrom, hg.splitGroup_paren]
      simp only [hbar, if_true, ih hlen, Option.map_some]

/-- The variants of a choice are those of the row, and there is one at least. -/
theorem variantsFrom_eq_some_iff {parts : List (List Token)} :
    variantsFrom ts.length ts = some parts ↔ VariantRow parts ts :=
  ⟨variantRow_of_variantsFrom, fun h => h.variantsFrom_eq (Nat.le_refl _)⟩

/-! ## Captures and escapes -/

theorem captureForm?_eq_some_iff {name word : Token} :
    captureForm? ts = some ((name, word), rest) ↔ ∃ colon : Token, name.kind = .name ∧
      colon.isOperator ":" = true ∧ word.kind = .name ∧ ts = name :: colon :: word :: rest := by
  constructor
  · intro h
    unfold captureForm? at h
    split at h
    · next name' colon word' rest' =>
      split at h
      · next hform =>
        cases h
        exact ⟨colon, hform.1, hform.2.1, hform.2.2, rfl⟩
      · cases h
    · cases h
  · rintro ⟨colon, hname, hcolon, hword, rfl⟩
    rw [captureForm?, if_pos ⟨hname, hcolon, hword⟩]

theorem captureForm?_of_ne (h : t.kind ≠ .name) : captureForm? (t :: ts) = none := by
  rw [Option.eq_none_iff_forall_ne_some]
  rintro ⟨⟨name, word⟩, rest⟩ hform
  obtain ⟨colon, hname, -, -, heq⟩ := captureForm?_eq_some_iff.1 hform
  cases heq
  exact h hname

theorem escapeForm?_eq_some_iff {e : Escape} :
    escapeForm? ts = some (e, rest) ↔ ∃ symbol, e.IsSymbol symbol ∧ ts = symbol :: rest := by
  cases ts with
  | nil => simp [escapeForm?]
  | cons symbol ts =>
    simp only [escapeForm?, Option.map_eq_some_iff, Prod.mk.injEq, List.cons.injEq,
      Escape.ofSymbol?_eq_some_iff]
    constructor
    · rintro ⟨e', he, rfl, rfl⟩
      exact ⟨symbol, he, rfl, rfl⟩
    · rintro ⟨symbol', he, rfl, rfl⟩
      exact ⟨e, he, rfl, rfl⟩

/-- A symbol of an escape is no name, no delimiter and no quantifier. -/
theorem Escape.IsSymbol.plain {e : Escape} (h : e.IsSymbol t) :
    t.kind ≠ .name ∧ t.isDelimiter = false ∧ Quantifier.ofToken? t = none := by
  unfold Escape.IsSymbol at h
  rw [Token.isDelimiter_eq_false_iff]
  cases e <;> simp_all [Token.isOperator_iff, Token.role, Quantifier.ofToken?]

theorem Escape.IsSymbol.isOpener_eq_false {e : Escape} (h : e.IsSymbol t) (text : String) :
    t.isOpener text = false := by
  have hrole := Token.isDelimiter_eq_false_iff.1 h.plain.2.1
  cases hkind : t.kind <;> simp_all [Token.isOpener, Token.role]

/-! ## Separators -/

/-- The separator of a repetition, at no particular place: nothing, one token that is no
delimiter, no dollar sign and no quantifier, or a dollar sign and the symbol of an escape. -/
inductive WrittenSeparator : List Token → Option Token → Prop
  | none : WrittenSeparator [] none
  | plain {t : Token} : t.isDelimiter = false → t.kind ≠ .dollar →
      (∀ q : Quantifier, t.isOperator q.symbol = false) → WrittenSeparator [t] (some t.bare)
  | escaped {dollar symbol : Token} {e : Escape} : dollar.kind = .dollar → e.IsSymbol symbol →
      WrittenSeparator [dollar, symbol] (some (e.token {}))

theorem canSeparate_iff :
    canSeparate t = true ↔ t.isDelimiter = false ∧ ∀ q : Quantifier, t.isOperator q.symbol = false := by
  simp only [canSeparate, Bool.and_eq_true, Bool.not_eq_true', Option.isNone_iff_eq_none,
    Option.eq_none_iff_forall_ne_some, ne_eq, Quantifier.ofToken?_eq_some_iff,
    Bool.not_eq_true]

theorem Escape.token_bare (e : Escape) (p : Position) : (e.token p).bare = e.token {} := by
  cases e <;> rfl

theorem separator?_eq_some_iff {dollared : Bool} :
    separator? ts = some ((dollared, t), rest) ↔ canSeparate t = true ∧
      ((dollared = false ∧ t.kind ≠ .dollar ∧ ts = t :: rest) ∨
        dollared = true ∧ ∃ dollar : Token, dollar.kind = .dollar ∧ ts = dollar :: t :: rest) := by
  unfold separator?
  constructor
  · intro h
    split at h
    · cases h
    · next u us =>
      split at h
      · next hu =>
        split at h
        · cases h
        · split at h
          · next hcan =>
            cases h
            exact ⟨hcan, .inr ⟨rfl, u, hu, rfl⟩⟩
          · cases h
      · next hu =>
        split at h
        · next hcan =>
          cases h
          exact ⟨hcan, .inl ⟨rfl, hu, rfl⟩⟩
        · cases h
  · rintro ⟨hcan, ⟨rfl, ht, rfl⟩ | ⟨rfl, dollar, hdollar, rfl⟩⟩
    · simp only [if_neg ht, if_pos hcan]
    · simp only [if_pos hdollar, if_pos hcan]

theorem RepetitionTail.resolve_eq_ok_iff {tail : RepetitionTail} {position : Position}
    {separator : Option Token} : tail.resolve position = .ok (separator, q) ↔
      tail.separatorToken = .ok separator ∧ tail.mode.isOperator q.symbol = true := by
  rw [RepetitionTail.resolve, ← Quantifier.ofToken?_eq_some_iff]
  cases tail.separatorToken with
  | error e => simp
  | ok s => cases Quantifier.ofToken? tail.mode <;> simp

/-- Behind the separator, if one can be read, stands any token that is no delimiter. -/
theorem repetitionTail?_eq_some_iff {tail : RepetitionTail} :
    repetitionTail? ts = some (tail, rest) ↔ tail.mode.isDelimiter = false ∧
      ((tail.separator = none ∧ separator? ts = none ∧ ts = tail.mode :: rest) ∨
        ∃ s, tail.separator = some s ∧ separator? ts = some (s, tail.mode :: rest)) := by
  obtain ⟨separator, mode⟩ := tail
  unfold repetitionTail?
  cases hs : separator? ts with
  | none =>
    cases ts with
    | nil => simp
    | cons t ts =>
      constructor
      · intro h
        simp only at h
        split at h
        · cases h
        · next ht =>
          cases h
          exact ⟨Bool.not_eq_true _ ▸ ht, .inl ⟨rfl, rfl, rfl⟩⟩
      · rintro ⟨hmode, ⟨rfl, -, heq⟩ | ⟨s, -, hsome⟩⟩
        · cases heq
          simp only [hmode, Bool.false_eq_true, if_false]
        · cases hsome
  | some found =>
    obtain ⟨s, behind⟩ := found
    cases behind with
    | nil => simp
    | cons t behind =>
      constructor
      · intro h
        simp only at h
        split at h
        · cases h
        · next ht =>
          cases h
          exact ⟨Bool.not_eq_true _ ▸ ht, .inr ⟨s, rfl, rfl⟩⟩
      · rintro ⟨hmode, ⟨-, hnone, -⟩ | ⟨s, rfl, hsome⟩⟩
        · cases hnone
        · cases hsome
          simp only [hmode, Bool.false_eq_true, if_false]

theorem repetitionForm?_eq_some_iff {tail : RepetitionTail} :
    repetitionForm? ts = some ((body, tail), rest) ↔ ∃ group behind,
      Enclosed "(" ")" body group ∧ repetitionTail? behind = some (tail, rest) ∧
        ts = group ++ behind := by
  unfold repetitionForm?
  constructor
  · intro h
    split at h
    · cases h
    · next body' behind hsplit =>
      split at h
      · cases h
      · next tail' rest' htail =>
        cases h
        obtain ⟨group, hgroup, rfl⟩ := splitGroup_paren_iff.1 hsplit
        exact ⟨group, behind, hgroup, htail, rfl⟩
  · rintro ⟨group, behind, hgroup, htail, rfl⟩
    simp only [hgroup.splitGroup_paren, htail]

theorem repetitionForm?_of_ne (h : t.isOpener "(" = false) : repetitionForm? (t :: ts) = none := by
  rw [repetitionForm?, splitGroup_of_ne h]

/-- What is read as separator and quantifier is written there. -/
theorem exists_written_of_repetitionTail? {tail : RepetitionTail} {separator : Option Token}
    {position : Position} (h : repetitionTail? ts = some (tail, rest))
    (hr : tail.resolve position = .ok (separator, q)) :
    ∃ written mode, WrittenSeparator written (separator.map Token.bare) ∧
      mode.isOperator q.symbol = true ∧ ts = written ++ mode :: rest := by
  obtain ⟨hseparator, hmode⟩ := RepetitionTail.resolve_eq_ok_iff.1 hr
  rw [RepetitionTail.separatorToken] at hseparator
  obtain ⟨-, ⟨hnone, -, rfl⟩ | ⟨⟨dollared, t⟩, hsome, hs⟩⟩ := repetitionTail?_eq_some_iff.1 h
  · rw [hnone] at hseparator
    cases hseparator
    exact ⟨[], tail.mode, .none, hmode, rfl⟩
  · rw [hsome] at hseparator
    obtain ⟨hcan, ⟨rfl, ht, rfl⟩ | ⟨rfl, dollar, hdollar, rfl⟩⟩ := separator?_eq_some_iff.1 hs
    · cases hseparator
      exact ⟨[t], tail.mode, .plain (canSeparate_iff.1 hcan).1 ht (canSeparate_iff.1 hcan).2,
        hmode, rfl⟩
    · simp only at hseparator
      split at hseparator
      · next e he =>
        cases hseparator
        have hwritten := WrittenSeparator.escaped hdollar (Escape.ofSymbol?_eq_some_iff.1 he)
        rw [← Escape.token_bare e t.position] at hwritten
        exact ⟨[dollar, t], tail.mode, hwritten, hmode, rfl⟩
      · cases hseparator

/-- What is written there is read as separator and quantifier. -/
theorem exists_repetitionTail?_of_written {written : List Token} {separator : Option Token}
    (h : WrittenSeparator written separator) (hmode : mode.isOperator q.symbol = true)
    (rest : List Token) (position : Position) :
    ∃ tail found, repetitionTail? (written ++ mode :: rest) = some (tail, rest) ∧
      tail.resolve position = .ok (found, q) ∧ found.map Token.bare = separator := by
  have hplain : mode.isDelimiter = false :=
    Token.isDelimiter_eq_false_iff.2 (role_of_isOperator hmode)
  cases h with
  | none =>
    have hno : separator? (mode :: rest) = none := by
      have hkind := (Token.isOperator_iff.1 hmode).1
      have hcan : canSeparate mode = false := by
        simp [canSeparate, Quantifier.ofToken?_eq_some_iff.2 hmode]
      simp [separator?, hkind, hcan]
    exact ⟨⟨none, mode⟩, none, repetitionTail?_eq_some_iff.2 ⟨hplain, .inl ⟨rfl, hno, rfl⟩⟩,
      RepetitionTail.resolve_eq_ok_iff.2 ⟨rfl, hmode⟩, rfl⟩
  | @plain t hdelimiter hdollar hquantifier =>
    have hsome : separator? (t :: mode :: rest) = some ((false, t), mode :: rest) :=
      separator?_eq_some_iff.2
        ⟨canSeparate_iff.2 ⟨hdelimiter, hquantifier⟩, .inl ⟨rfl, hdollar, rfl⟩⟩
    exact ⟨⟨some (false, t), mode⟩, some t,
      repetitionTail?_eq_some_iff.2 ⟨hplain, .inr ⟨_, rfl, hsome⟩⟩,
      RepetitionTail.resolve_eq_ok_iff.2 ⟨rfl, hmode⟩, rfl⟩
  | @escaped dollar symbol e hdollar hsymbol =>
    have hcan : canSeparate symbol = true := by
      simp [canSeparate, hsymbol.plain.2.1, hsymbol.plain.2.2]
    have hsome : separator? (dollar :: symbol :: mode :: rest) =
        some ((true, symbol), mode :: rest) :=
      separator?_eq_some_iff.2 ⟨hcan, .inr ⟨rfl, dollar, hdollar, rfl⟩⟩
    have htoken : RepetitionTail.separatorToken ⟨some (true, symbol), mode⟩ =
        .ok (some (e.token symbol.position)) := by
      simp only [RepetitionTail.separatorToken, Escape.ofSymbol?_eq_some_iff.2 hsymbol]
    refine ⟨⟨some (true, symbol), mode⟩, some (e.token symbol.position),
      repetitionTail?_eq_some_iff.2 ⟨hplain, .inr ⟨_, rfl, hsome⟩⟩,
      RepetitionTail.resolve_eq_ok_iff.2 ⟨htoken, hmode⟩, ?_⟩
    rw [Option.map_some, Escape.token_bare]

end TokenMacros
