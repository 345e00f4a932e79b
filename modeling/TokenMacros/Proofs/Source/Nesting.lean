import TokenMacros.Proofs.Source.Content
import TokenMacros.Proofs.Source.Printing
import TokenMacros.Proofs.Token.Balance

/-!
# Nesting of the tokens of a source

The indents and dedents of a source text balance by themselves, so the text is balanced
if its brackets are:

    tokenize source = .ok ts →
      Balanced (ts.filter Token.isBlock) ∧
        ((∃ p, Pairing.ofTokens ts = .ok p) ↔ Balanced (ts.filter Token.isBracket))
                                                           (balanced_tokenize)

A layout token stands only where the count of open brackets is zero. A stray closer leaves
that count at zero, so it need not be the true nesting; where the brackets close what is
open, the two agree (`Word.length_nest`), and a block opens or closes with no bracket open
(`Line.closesWithin`).
-/

namespace TokenMacros

namespace Token

/-- Is it an opening or a closing token? -/
def isBracket (t : Token) : Bool := t.kind == .opener || t.kind == .closer

theorem isBracket_eq_of_opens_closes {opener closer : Token} {d : Delimiter}
    (ho : opener.role = .opens d) (hc : closer.role = .closes d) :
    opener.isBracket = closer.isBracket := by
  have hopener : opener.isBracket = true ↔ d ≠ .indent := by
    unfold role at ho
    split at ho <;> simp_all [isBracket]
    subst ho
    split_ifs <;> simp
  have hcloser : closer.isBracket = true ↔ d ≠ .indent := by
    unfold role at hc
    split at hc <;> simp_all [isBracket]
    subst hc
    split_ifs <;> simp
  rw [Bool.eq_iff_iff, hopener, hcloser]

end Token

/-- What a balanced stream keeps balances, if it keeps a closer with each opener. -/
theorem Balanced.filter {keep : Token → Bool}
    (hkeep : ∀ {opener closer : Token} {d : Delimiter}, opener.role = .opens d →
      closer.role = .closes d → keep opener = keep closer)
    {ts : List Token} (h : Balanced ts) : Balanced (ts.filter keep) := by
  induction h with
  | nil => exact .nil
  | plain ht _ ih =>
    rw [List.filter_cons]
    split_ifs
    · exact .plain ht ih
    · exact ih
  | tree ho hc _ _ ihInner ih =>
    rw [List.cons_append, List.filter_cons, List.filter_append, List.filter_cons, hkeep ho hc]
    split_ifs
    · exact .tree ho hc ihInner ih
    · exact ihInner.append ih

theorem nest_append {t : Token} {stack next : List Delimiter} (h : t.nest stack = some next)
    (below : List Delimiter) : t.nest (stack ++ below) = some (next ++ below) := by
  unfold Token.nest at h ⊢
  cases hrole : t.role with
  | plain =>
    simp only [hrole, Option.some.injEq] at h
    rw [h]
  | opens d =>
    simp only [hrole, Option.some.injEq] at h
    rw [← h]
    rfl
  | closes d =>
    cases stack with
    | nil => simp [hrole] at h
    | cons top stack =>
      simp only [hrole] at h
      split_ifs at h with htop
      cases h
      simp [htop]

namespace Source

variable {level level' depth : Nat} {layout ts : List Token} {t : Token}

/-! ## Words -/

theorem Word.isBlock_eq_false (ht : Word t) : t.isBlock = false := by
  obtain ⟨-, hindent, hdedent⟩ := ht.kind_ne
  simp [Token.isBlock, hindent, hdedent]

/-- A word that is no bracket is plain. -/
theorem Word.role_of_not_isBracket (ht : Word t) (h : t.isBracket = false) : t.role = .plain := by
  obtain ⟨-, hindent, hdedent⟩ := ht.kind_ne
  simp only [Token.isBracket, Bool.or_eq_false_iff, beq_eq_false_iff_ne] at h
  unfold Token.role
  split <;> simp_all

/-- Where a word closes what is open, the count of open brackets is the true nesting. -/
theorem Word.length_nest (ht : Word t) {stack next : List Delimiter}
    (h : t.nest stack = some next) :
    next.length = LineState.depthAfter stack.length t.kind := by
  obtain ⟨-, hindent, hdedent⟩ := ht.kind_ne
  unfold Token.nest Token.role at h
  cases hkind : t.kind with
  | opener =>
    simp only [hkind, Option.some.injEq] at h
    rw [← h]
    rfl
  | closer =>
    cases stack with
    | nil => simp [hkind] at h
    | cons top stack =>
      simp only [hkind, Option.ite_none_right_eq_some, Option.some.injEq] at h
      rw [← h.2]
      rfl
  | indent => contradiction
  | dedent => contradiction
  | name | number | string | operator | newline | dollar =>
    simp only [hkind, Option.some.injEq] at h
    rw [← h]
    rfl

/-- A word in front of the brackets of what follows: it is one of them, or nests nothing. -/
theorem Word.openAfter_filter (ht : Word t) (stack : List Delimiter) (ts : List Token) :
    openAfter stack ((t :: ts).filter Token.isBracket) =
      (t.nest stack).bind fun next => openAfter next (ts.filter Token.isBracket) := by
  rw [List.filter_cons]
  split_ifs with hbracket
  · rfl
  · rw [nest_of_plain (ht.role_of_not_isBracket (by simpa using hbracket))]
    rfl

/-! ## Layout -/

/-- The blocks that are open at a level. -/
def blocksAt (level : Nat) : List Delimiter := List.replicate level .indent

theorem openAfter_dedents (level count : Nat) :
    openAfter (blocksAt (level + count)) (List.replicate count (.dedent {})) =
      some (blocksAt level) := by
  induction count with
  | zero => rfl
  | succ count ih =>
    rw [← Nat.add_assoc, blocksAt, List.replicate_succ, List.replicate_succ, openAfter,
      nest_of_closes rfl, Option.bind_some]
    exact ih

theorem openAfter_last (level : Nat) :
    openAfter (blocksAt level) (List.replicate level (.dedent {})) = some [] := by
  have hdedents := openAfter_dedents 0 level
  rwa [Nat.zero_add] at hdedents

theorem Shift.openAfter_eq (h : Shift level level' layout) :
    openAfter (blocksAt level) layout = some (blocksAt level') := by
  cases h with
  | deeper => rfl
  | back level' count => exact openAfter_dedents level' count

theorem filter_isBlock_of_layout (h : ∀ t ∈ layout, t.isBlock = true) :
    layout.filter Token.isBlock = layout :=
  List.filter_eq_self.2 h

theorem filter_isBracket_of_layout (h : ∀ t ∈ layout, t.isBlock = true) :
    layout.filter Token.isBracket = [] := by
  refine List.filter_eq_nil_iff.2 fun t ht => ?_
  have hblock := h t ht
  simp only [Token.isBlock, Bool.or_eq_true, beq_iff_eq] at hblock
  rcases hblock with hkind | hkind <;> simp [Token.isBracket, hkind]

/-! ## Lines -/

/-- The indents and dedents behind a word close the blocks that are open there. -/
theorem Line.openAfter_blocks (h : Line level depth ts) :
    openAfter (blocksAt level) (ts.filter Token.isBlock) = some [] := by
  induction h with
  | word ht _ ih =>
    rw [List.filter_cons, ht.isBlock_eq_false]
    exact ih
  | next hshift ht _ ih =>
    rw [List.filter_cons_of_neg (by simp [Token.isBlock, Token.newline]), List.filter_append,
      filter_isBlock_of_layout hshift.isBlock, openAfter_append, hshift.openAfter_eq,
      Option.bind_some, List.filter_cons, ht.isBlock_eq_false]
    exact ih
  | last level depth =>
    rw [List.filter_cons_of_neg (by simp [Token.isBlock, Token.newline]),
      filter_isBlock_of_layout (Shift.back 0 level).isBlock]
    exact openAfter_last level

theorem Lines.openAfter_blocks (h : Lines 0 ts) :
    openAfter [] (ts.filter Token.isBlock) = some [] := by
  cases h with
  | done => rfl
  | line hshift ht hline =>
    have hlayout := hshift.openAfter_eq
    rw [List.filter_append, filter_isBlock_of_layout hshift.isBlock, openAfter_append,
      show ([] : List Delimiter) = blocksAt 0 from rfl, hlayout, Option.bind_some,
      List.filter_cons, ht.isBlock_eq_false]
    exact hline.openAfter_blocks

/-- If the brackets of the tokens close a stack of that depth, then the tokens close that stack and
the blocks around it. -/
def ClosesWithin (level depth : Nat) (ts : List Token) : Prop :=
  ∀ brackets : List Delimiter, brackets.length = depth →
    openAfter brackets (ts.filter Token.isBracket) = some [] →
      openAfter (brackets ++ blocksAt level) ts = some []

theorem Word.closesWithin_cons (ht : Word t)
    (h : ClosesWithin level (LineState.depthAfter depth t.kind) ts) :
    ClosesWithin level depth (t :: ts) := by
  intro brackets hlen hclose
  rw [ht.openAfter_filter, Option.bind_eq_some_iff] at hclose
  obtain ⟨next, hnext, hrest⟩ := hclose
  rw [openAfter, nest_append hnext, Option.bind_some]
  exact h next (by rw [ht.length_nest hnext, hlen]) hrest

theorem Shift.closesWithin_append (hshift : Shift level level' layout)
    (h : ClosesWithin level' 0 ts) : ClosesWithin level 0 (layout ++ ts) := by
  intro brackets hlen hclose
  obtain rfl := List.eq_nil_of_length_eq_zero hlen
  rw [List.filter_append, filter_isBracket_of_layout hshift.isBlock, List.nil_append] at hclose
  rw [List.nil_append, openAfter_append, hshift.openAfter_eq]
  exact h [] rfl hclose

theorem closesWithin_newline (h : ClosesWithin level depth ts) :
    ClosesWithin level depth (.newline {} :: ts) := by
  intro brackets hlen hclose
  rw [openAfter, nest_of_plain rfl]
  exact h brackets hlen hclose

theorem closesWithin_last (level depth : Nat) :
    ClosesWithin level depth (List.replicate level (.dedent {})) := by
  intro brackets hlen hclose
  rw [filter_isBracket_of_layout (Shift.back 0 level).isBlock, openAfter, Option.some.injEq]
    at hclose
  rw [hclose]
  exact openAfter_last level

/-- The induction is on the line. As the brackets agree with the count, none is open where a line
ends. -/
theorem Line.closesWithin (h : Line level depth ts) : ClosesWithin level depth ts := by
  induction h with
  | word ht _ ih => exact ht.closesWithin_cons ih
  | next hshift ht _ ih =>
    exact closesWithin_newline (hshift.closesWithin_append (ht.closesWithin_cons ih))
  | last level depth => exact closesWithin_newline (closesWithin_last level depth)

theorem Lines.closesWithin (h : Lines level ts) : ClosesWithin level 0 ts := by
  cases h with
  | done => exact closesWithin_last level 0
  | line hshift ht hline =>
    exact hshift.closesWithin_append (ht.closesWithin_cons hline.closesWithin)

/-! ## Sources -/

theorem openAfter_map_bare (stack : List Delimiter) (ts : List Token) :
    openAfter stack (ts.map Token.bare) = openAfter stack ts := by
  induction ts generalizing stack with
  | nil => rfl
  | cons t ts ih =>
    rw [List.map_cons, openAfter, openAfter]
    simp only [ih]
    rfl

theorem filter_map_bare {p : Token → Bool} (hp : ∀ t : Token, p t.bare = p t) (ts : List Token) :
    (ts.map Token.bare).filter p = (ts.filter p).map Token.bare := by
  rw [List.filter_map]
  exact congrArg _ (List.filter_congr fun t _ => hp t)

theorem openAfter_dropIdleNewlines (stack : List Delimiter) (ts : List Token) :
    openAfter stack (dropIdleNewlines ts) = openAfter stack ts := by
  induction ts generalizing stack with
  | nil => rfl
  | cons t ts ih =>
    rw [dropIdleNewlines]
    split_ifs with hidle
    · rw [ih, openAfter, nest_of_plain (Token.role_of_newline hidle.1), Option.bind_some]
    · rw [openAfter, openAfter]
      simp only [ih]

end Source

open Source

/-- The layout tokens of a source never break its balance: they balance by themselves, and the
source is balanced exactly if its brackets are. -/
theorem balanced_tokenize {source : String} {ts : List Token} (h : tokenize source = .ok ts) :
    Balanced (ts.filter Token.isBlock) ∧
      ((∃ p, Pairing.ofTokens ts = .ok p) ↔ Balanced (ts.filter Token.isBracket)) := by
  obtain ⟨xs, p, raw, hlexemes, hraw, rfl⟩ := tokenize_eq_ok_iff.1 h
  have hlines : Lines 0 (raw.map Token.bare) :=
    lines_of_tokens (wordsOnly_of_lexemesFrom hlexemes) hraw
  have hblock : ∀ t : Token, t.kind = .newline → t.isBlock = false := by
    intro t ht
    simp [Token.isBlock, ht]
  have hbracket : ∀ t : Token, t.kind = .newline → t.isBracket = false := by
    intro t ht
    simp [Token.isBracket, ht]
  rw [ofTokens_ok_iff, filter_dropIdleNewlines hblock, filter_dropIdleNewlines hbracket]
  refine ⟨?_, fun hbalanced => ?_, fun hbrackets => ?_⟩
  · have hblocks := hlines.openAfter_blocks
    rwa [filter_map_bare fun _ => rfl, openAfter_map_bare, ← balanced_iff_openAfter] at hblocks
  · rw [← filter_dropIdleNewlines hbracket]
    exact hbalanced.filter Token.isBracket_eq_of_opens_closes
  · rw [balanced_iff_openAfter] at hbrackets
    rw [balanced_iff_openAfter, openAfter_dropIdleNewlines, ← openAfter_map_bare]
    refine hlines.closesWithin [] rfl ?_
    rwa [filter_map_bare fun _ => rfl, openAfter_map_bare]

/-! ## Brackets over lines, and stray ones -/

/-- A call over two lines within a block, and a list that a wider line closes. -/
def nestedSource : String := "if a:\n  f(b,\n c)\n  [\n\t]\nd"

/-- The same call behind a stray closer, and with another one in the block. -/
def straySource : String := ")\nif a:\n  f(b,\n c)\n  ] d"

theorem balanced_tokenize_nested :
    (∃ ts p, tokenize nestedSource = .ok ts ∧ Balanced (ts.filter Token.isBlock) ∧
      Balanced (ts.filter Token.isBracket) ∧ Pairing.ofTokens ts = .ok p) ∧
    ∃ ts, tokenize straySource = .ok ts ∧ Balanced (ts.filter Token.isBlock) ∧
      ¬ Balanced (ts.filter Token.isBracket) ∧ ¬ ∃ p, Pairing.ofTokens ts = .ok p := by
  have hnested : (tokenize nestedSource).map
      (fun ts => decide (Balanced (ts.filter Token.isBracket))) = .ok true := rfl
  have hstray : (tokenize straySource).map
      (fun ts => decide (Balanced (ts.filter Token.isBracket))) = .ok false := rfl
  constructor
  · obtain ⟨ts, hts, hbrackets⟩ := map_eq_ok_iff.1 hnested
    obtain ⟨hblocks, hiff⟩ := balanced_tokenize hts
    obtain ⟨p, hp⟩ := hiff.2 (of_decide_eq_true hbrackets)
    exact ⟨ts, p, hts, hblocks, of_decide_eq_true hbrackets, hp⟩
  · obtain ⟨ts, hts, hbrackets⟩ := map_eq_ok_iff.1 hstray
    obtain ⟨hblocks, hiff⟩ := balanced_tokenize hts
    exact ⟨ts, hts, hblocks, of_decide_eq_false hbrackets,
      fun hpairs => of_decide_eq_false hbrackets (hiff.1 hpairs)⟩

end TokenMacros
