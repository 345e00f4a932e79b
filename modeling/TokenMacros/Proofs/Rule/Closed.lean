import TokenMacros.Proofs.Rule.Derivation

/-!
# Patterns that are closed

The delimiters of a pattern need not stand in one node: an opener may be a literal before
a repetition or a choice, and its closer a literal behind it. A pattern is closed if its
own literals and escapes balance, the other nodes left out, and so do those of each body
of a repetition and each variant of a choice, with no delimiter between rounds.

A closed pattern reads balanced tokens off any stream, whether the stream is balanced or
not (`Pattern.balanced_of_readAt`). For parts of a pattern that holds up to the
delimiters that the part itself opens and closes: what nodes stand for leaves those
delimiters open that their own tokens leave open (`Pattern.openAfter_of_derives`).
-/

namespace TokenMacros

/-! ## The tokens of a pattern -/

/-- The token that a literal or an escape names. -/
def PatternNode.ownTokens : PatternNode → List Token
  | .literal t => [t]
  | .escape e => [e.token {}]
  | .capture _ _ _ | .repetition _ _ _ | .choice _ _ | .lookahead _ => []

/-- The tokens that the literals and escapes of a pattern name, those of its parts left out. -/
def Pattern.ownTokens (p : Pattern) : List Token := p.flatMap PatternNode.ownTokens

mutual

/-- Are the body and the variants in a node closed, and is no separator a delimiter? -/
def PatternNode.partsClosed : PatternNode → Bool
  | .literal _ | .escape _ | .capture _ _ _ | .lookahead _ => true
  | .repetition inner separator _ => decide (Balanced (Pattern.ownTokens inner)) &&
      Pattern.partsClosed inner && separator.all fun t => !t.isDelimiter
  | .choice variants _ => Pattern.eachClosed variants

/-- Are all bodies and variants in a pattern closed, and is no separator a delimiter? -/
def Pattern.partsClosed : Pattern → Bool
  | [] => true
  | node :: nodes => node.partsClosed && Pattern.partsClosed nodes

/-- Are all variants closed? -/
def Pattern.eachClosed : List Pattern → Bool
  | [] => true
  | variant :: variants => decide (Balanced (Pattern.ownTokens variant)) &&
      Pattern.partsClosed variant && Pattern.eachClosed variants

end

/-- Do the pattern's own tokens balance, and those of each part? -/
def Pattern.closed (p : Pattern) : Bool := decide (Balanced p.ownTokens) && p.partsClosed

theorem Pattern.closed_iff {p : Pattern} :
    p.closed = true ↔ Balanced p.ownTokens ∧ p.partsClosed = true := by
  rw [closed, Bool.and_eq_true, decide_eq_true_eq]

variable {piece rest : List Token} {t u : Token}

/-! ## Single tokens -/

theorem Token.nest_congr (h : t.role = u.role) (stack : List Delimiter) :
    t.nest stack = u.nest stack := by
  rw [nest, nest, h]

theorem Token.role_eq_of_same (h : t.same u = true) : t.role = u.role := by
  rw [← role_bare t, same_iff.1 h, role_bare]

theorem Escape.role_token {e : Escape} (h : t.kind = e.kind) : t.role = (e.token {}).role := by
  cases e <;> simp [Token.role, h, Escape.kind]

theorem openAfter_singleton (stack : List Delimiter) (t : Token) :
    openAfter stack [t] = t.nest stack := by
  rw [openAfter]
  cases t.nest stack <;> rfl

/-! ## Rounds -/

theorem Separates.balanced {separator : Option Token}
    (hplain : separator.all (fun t => !t.isDelimiter) = true) (h : Separates separator piece) :
    Balanced piece := by
  cases separator with
  | none =>
    cases h
    exact .nil
  | some separator =>
    obtain ⟨t, rfl, hsame⟩ := h
    refine .plain ?_ .nil
    rw [Token.role_eq_of_same hsame]
    exact Token.isDelimiter_eq_false_iff.1 (by simpa using hplain)

/-- Balanced pieces, with what separates between two of them, are balanced. -/
theorem PieceRow.balanced {Piece : List Token → List Token → Prop} {separator : Option Token}
    {k : Nat} (hpiece : ∀ us vs, Piece us vs → Balanced us)
    (hplain : separator.all (fun t => !t.isDelimiter) = true)
    (h : PieceRow Piece separator k piece rest) : Balanced piece := by
  induction h with
  | none => exact .nil
  | one hone => exact hpiece _ _ hone
  | more hone hbetween _ ih => exact ((hpiece _ _ hone).append (hbetween.balanced hplain)).append ih

/-! ## Patterns -/

mutual

/-- The stack that the tokens of a node lead to is the one that its own token leads to. -/
theorem PatternNode.openAfter_of_derives : ∀ (node : PatternNode) {piece rest : List Token},
    node.partsClosed = true → node.Derives piece rest → ∀ stack,
      openAfter stack piece = openAfter stack node.ownTokens
  | .literal literal, _, _, _, h, stack => by
    rw [PatternNode.Derives] at h
    obtain ⟨t, rfl, hsame⟩ := h
    rw [PatternNode.ownTokens, openAfter_singleton, openAfter_singleton]
    exact Token.nest_congr (Token.role_eq_of_same hsame) stack
  | .escape e, _, _, _, h, stack => by
    rw [PatternNode.Derives] at h
    obtain ⟨t, rfl, hkind⟩ := h
    rw [PatternNode.ownTokens, openAfter_singleton, openAfter_singleton]
    exact Token.nest_congr (Escape.role_token hkind) stack
  | .capture _ _ _, _, _, _, h, stack => by
    rw [PatternNode.Derives] at h
    exact h.balanced.openAfter_eq stack
  | .repetition inner separator _, piece, rest, hclosed, h, stack => by
    rw [PatternNode.Derives] at h
    simp only [PatternNode.partsClosed, Bool.and_eq_true, decide_eq_true_eq] at hclosed
    obtain ⟨⟨hown, hparts⟩, hplain⟩ := hclosed
    obtain ⟨k, -, hrow⟩ := h
    -- the body's own tokens balance, and so does what a round stands for
    have hround : ∀ us vs, Pattern.Derives inner us vs → Balanced us := by
      intro us vs hderives
      rw [balanced_iff_openAfter, Pattern.openAfter_of_derives inner hparts hderives]
      exact hown.openAfter_eq []
    exact (hrow.balanced hround hplain).openAfter_eq stack
  | .choice variants _, _, _, hclosed, h, stack => by
    rw [PatternNode.Derives] at h
    rw [PatternNode.partsClosed] at hclosed
    exact (Pattern.balanced_of_derivesFirst variants hclosed h).openAfter_eq stack
  | .lookahead _, _, _, _, h, stack => by
    rw [PatternNode.Derives] at h
    rw [h.1]
    rfl

/-- The stack that the tokens of a pattern lead to is the one that its own tokens lead to. -/
theorem Pattern.openAfter_of_derives : ∀ (p : Pattern) {piece rest : List Token},
    Pattern.partsClosed p = true → Pattern.Derives p piece rest → ∀ stack,
      openAfter stack piece = openAfter stack (Pattern.ownTokens p)
  | [], _, _, _, h, stack => by
    rw [Pattern.Derives] at h
    rw [h]
    rfl
  | node :: nodes, _, _, hclosed, h, stack => by
    rw [Pattern.Derives] at h
    rw [Pattern.partsClosed, Bool.and_eq_true] at hclosed
    obtain ⟨first, behind, rfl, hnode, hnodes⟩ := h
    rw [Pattern.ownTokens, List.flatMap_cons, openAfter_append, openAfter_append,
      PatternNode.openAfter_of_derives node hclosed.1 hnode]
    exact Option.bind_congr fun next _ => Pattern.openAfter_of_derives nodes hclosed.2 hnodes next

/-- What a choice of closed variants stands for is balanced. -/
theorem Pattern.balanced_of_derivesFirst : ∀ (variants : List Pattern) {piece rest : List Token},
    Pattern.eachClosed variants = true → Pattern.DerivesFirst variants piece rest → Balanced piece
  | [], _, _, _, h => by
    rw [Pattern.DerivesFirst] at h
    exact h.elim
  | variant :: variants, _, _, hclosed, h => by
    rw [Pattern.DerivesFirst] at h
    simp only [Pattern.eachClosed, Bool.and_eq_true, decide_eq_true_eq] at hclosed
    obtain ⟨⟨hown, hparts⟩, hothers⟩ := hclosed
    rcases h with ⟨-, hvariant⟩ | ⟨-, hrest⟩
    · rw [balanced_iff_openAfter, Pattern.openAfter_of_derives variant hparts hvariant]
      exact hown.openAfter_eq []
    · exact Pattern.balanced_of_derivesFirst variants hothers hrest

end

namespace Pattern

variable {p : Pattern} {ts : List Token}

/-- What a closed pattern reads is balanced. -/
theorem balanced_used_of_closed (hp : p.closed = true) {r : Reading} (h : p.read ts = some r) :
    Balanced r.used := by
  rw [closed_iff] at hp
  rw [balanced_iff_openAfter, openAfter_of_derives p hp.2 (read_derives p h)]
  exact hp.1.openAfter_eq []

/-- What a closed pattern reads at an index is balanced. -/
theorem balanced_of_readAt (hp : p.closed = true) {start : Nat} {found : Found}
    (h : p.readAt ts start = some found) :
    Balanced ((ts.drop start).take (found.stop - start)) := by
  obtain ⟨r, hr, rfl⟩ := Option.map_eq_some_iff.1 h
  have htaken : (ts.drop start).take r.used.length = r.used := by
    rw [← read_append p hr, List.take_left]
  simp only [Nat.add_sub_cancel_left, htaken]
  exact balanced_used_of_closed hp hr

end Pattern

end TokenMacros
