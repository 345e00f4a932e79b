import TokenMacros.Proofs.Token.Tree
import TokenMacros.Rule.Reading

/-!
# What patterns stand for

`Pattern.Derives` gives the meaning of a pattern by recursion over its nodes, without
captures, rounds that are cut off or separators that are given back: it tells which
tokens the nodes may stand for, a piece for each, in front of which rest. What a
pattern reads it stands for:

    p.readAt ts start = some found → start ≤ ts.length →
      start ≤ found.stop ∧ found.stop ≤ ts.length ∧
        Pattern.Derives p (the tokens from start to found.stop) (ts.drop found.stop)
                                                           (Pattern.readAt_derives)

The rest counts for lookaheads and choices only: a choice stands for what the first
variant stands for that can be read there.
-/

namespace TokenMacros

/-! ## Meanings -/

/-- The tokens that a capture of this fragment may hold. -/
def Fragment.Admits : Fragment → List Token → Prop
  | .token, piece => ∃ t, piece = [t] ∧ t.isDelimiter = false
  | .name, piece => ∃ t, piece = [t] ∧ t.kind = .name
  | .operator, piece => ∃ t, piece = [t] ∧ t.kind = .operator
  | .number, piece => ∃ t, piece = [t] ∧ t.kind = .number
  | .string, piece => ∃ t, piece = [t] ∧ t.kind = .string
  | .tree, piece => TokenTree piece
  | .null, piece => piece = []

/-- The numbers of rounds that a quantifier allows. -/
def Quantifier.Allows : Quantifier → Nat → Prop
  | .optional, k => k ≤ 1
  | .any, _ => True
  | .atLeastOne, k => 1 ≤ k

/-- The tokens between two rounds: one that is the same as the separator, if there is one. -/
def Separates : Option Token → List Token → Prop
  | none, between => between = []
  | some separator, between => ∃ t, between = [t] ∧ t.same separator = true

/-- So many pieces, with what separates between two of them, in front of a rest. `Piece` tells of
a piece and what stands behind it whether the piece will do. -/
inductive PieceRow (Piece : List Token → List Token → Prop) (separator : Option Token) :
    Nat → List Token → List Token → Prop
  | none {rest : List Token} : PieceRow Piece separator 0 [] rest
  | one {piece rest : List Token} : Piece piece rest → PieceRow Piece separator 1 piece rest
  | more {k : Nat} {piece between pieces rest : List Token} :
      Piece piece (between ++ pieces ++ rest) → Separates separator between →
      PieceRow Piece separator (k + 1) pieces rest →
      PieceRow Piece separator (k + 2) (piece ++ between ++ pieces) rest

mutual

/-- The tokens `piece`, in front of `rest`, are what the node stands for. -/
def PatternNode.Derives : PatternNode → List Token → List Token → Prop
  | .literal literal, piece, _ => ∃ t, piece = [t] ∧ t.same literal = true
  | .escape escape, piece, _ => ∃ t, piece = [t] ∧ t.kind = escape.kind
  | .capture _ fragment _, piece, _ => fragment.Admits piece
  | .repetition inner separator q, piece, rest =>
    ∃ k, q.Allows k ∧ PieceRow (fun us vs => Pattern.Derives inner us vs) separator k piece rest
  | .choice variants _, piece, rest => Pattern.DerivesFirst variants piece rest
  | .lookahead inner, piece, rest => piece = [] ∧ Pattern.read inner rest = none

/-- The tokens fall into pieces for the nodes, in their order. -/
def Pattern.Derives : Pattern → List Token → List Token → Prop
  | [], piece, _ => piece = []
  | node :: nodes, piece, rest => ∃ first behind, piece = first ++ behind ∧
      node.Derives first (behind ++ rest) ∧ Pattern.Derives nodes behind rest

/-- The tokens are what the first variant stands for that can be read where they stand. -/
def Pattern.DerivesFirst : List Pattern → List Token → List Token → Prop
  | [], _, _ => False
  | variant :: variants, piece, rest =>
    ((Pattern.read variant (piece ++ rest)).isSome = true ∧ Pattern.Derives variant piece rest) ∨
      (Pattern.read variant (piece ++ rest) = none ∧ Pattern.DerivesFirst variants piece rest)

end

variable {ts taken rest : List Token}

/-! ## Captures -/

theorem Fragment.admits_of_take {f : Fragment} (h : f.take ts = some (taken, rest)) :
    f.Admits taken := by
  rcases Fragment.take_cases h with ⟨rfl, rfl, -⟩ | ⟨rfl, hsplit⟩ | ⟨t, haccepts, rfl, -⟩
  · rfl
  · exact tokenTree_of_splitTree hsplit
  · cases f with
    | null | tree => cases haccepts
    | token | name | operator | number | string =>
      exact ⟨t, rfl, by simpa [Fragment.accepts] using haccepts⟩

/-- What a capture may hold is balanced. -/
theorem Fragment.Admits.balanced {f : Fragment} (h : f.Admits taken) : Balanced taken := by
  cases f with
  | tree => exact TokenTree.balanced h
  | null =>
    cases h
    exact .nil
  | token =>
    obtain ⟨t, rfl, ht⟩ := h
    exact .plain (Token.isDelimiter_eq_false_iff.1 ht) .nil
  | name | operator | number | string =>
    obtain ⟨t, rfl, ht⟩ := h
    exact .plain (by simp [Token.role, ht]) .nil

/-! ## Rounds -/

theorem separates_of_splitSeparator {due : Option Token} {behind : List Token}
    (h : splitSeparator due ts = some (taken, behind)) : Separates due taken := by
  rcases splitSeparator_cases h with ⟨rfl, rfl, -⟩ | ⟨separator, t, rfl, hsame, rfl, -⟩
  · rfl
  · exact ⟨t, rfl, hsame⟩

/-- Rounds that take anything take the separator that is due, and then as many pieces as there are
rounds. -/
theorem rounds_of_readRounds {item : Reader} {Piece : List Token → List Token → Prop}
    (happend : ∀ {ts r}, item ts = some r → r.used ++ r.rest = ts)
    (hpiece : ∀ {ts r}, item ts = some r → Piece r.used r.rest) (separator : Option Token)
    (most : Nat) (due : Option Token) (ts : List Token) :
    readRounds item separator most due ts = ⟨[], [], ts⟩ ∨
      ∃ between pieces, (readRounds item separator most due ts).used = between ++ pieces ∧
        Separates due between ∧ PieceRow Piece separator
          (readRounds item separator most due ts).items.length pieces
          (readRounds item separator most due ts).rest ∧
        (readRounds item separator most due ts).items ≠ [] := by
  induction most generalizing due ts with
  | zero => exact .inl rfl
  | succ most ih =>
    rw [readRounds]
    split
    · exact .inl rfl
    · next taken behind hsplit =>
      split
      · exact .inl rfl
      · next r hr =>
        have hbetween := separates_of_splitSeparator hsplit
        refine .inr ?_
        split
        · next hnil =>
          obtain ⟨rfl, hused⟩ := List.append_eq_nil_iff.1 hnil
          exact ⟨[], r.used, by simp [hused], hbetween, .one (hpiece hr), by simp⟩
        · next u us hcons =>
          rcases ih separator r.rest with hstop | ⟨between, pieces, hused, hsep, hrounds, hne⟩
          · rw [hstop]
            exact ⟨taken, r.used, by simp only [hcons, List.append_nil], hbetween,
              .one (hpiece hr), by simp⟩
          · have hrest := readRounds_append happend separator most separator r.rest
            rw [hused] at hrest
            obtain ⟨c, cs, hitems⟩ := List.exists_cons_of_ne_nil hne
            refine ⟨taken, r.used ++ between ++ pieces, ?_, hbetween, ?_, by simp⟩
            · simp only [hused, ← hcons, List.append_assoc]
            · rw [hitems] at hrounds
              simp only [hitems]
              refine .more ?_ hsep hrounds
              rw [hrest]
              exact hpiece hr

theorem length_items_readRounds_le (item : Reader) (separator : Option Token) (most : Nat)
    (due : Option Token) (ts : List Token) :
    (readRounds item separator most due ts).items.length ≤ most := by
  induction most generalizing due ts with
  | zero => exact Nat.le_refl 0
  | succ most ih =>
    rw [readRounds]
    split
    · exact Nat.zero_le _
    · split
      · exact Nat.zero_le _
      · split
        · exact Nat.succ_le_succ (Nat.zero_le most)
        · exact Nat.succ_le_succ (ih _ _)

/-- What a repetition reads are pieces for its rounds, as many as its quantifier allows. -/
theorem rounds_of_readRepetition {item : Reader} {Piece : List Token → List Token → Prop}
    (happend : ∀ {ts r}, item ts = some r → r.used ++ r.rest = ts)
    (hpiece : ∀ {ts r}, item ts = some r → Piece r.used r.rest) {slots : List Slot}
    {separator : Option Token} {q : Quantifier} {r : Reading}
    (h : readRepetition item slots separator q ts = some r) :
    ∃ k, q.Allows k ∧ PieceRow Piece separator k r.used r.rest := by
  obtain ⟨hfewest, rfl⟩ := readRepetition_eq_some.1 h
  refine ⟨(readRounds item separator (q.most ts) none ts).items.length, ?_, ?_⟩
  · cases q with
    | optional => exact length_items_readRounds_le item separator 1 none ts
    | any => trivial
    | atLeastOne => exact hfewest
  · rcases rounds_of_readRounds happend hpiece separator (q.most ts) none ts with
      hnone | ⟨between, pieces, hused, hsep, hrounds, -⟩
    · rw [hnone]
      exact .none
    · cases hsep
      rw [hused]
      exact hrounds

/-! ## Patterns -/

mutual

/-- A node stands for what it reads. -/
theorem PatternNode.read_derives : ∀ (node : PatternNode) {ts : List Token} {r : Reading},
    node.read ts = some r → node.Derives r.used r.rest
  | .literal literal, ts, r, h => by
    obtain ⟨t, rest, -, hsame, rfl⟩ := read_literal_eq_some.1 h
    rw [PatternNode.Derives]
    exact ⟨t, rfl, hsame⟩
  | .escape escape, ts, r, h => by
    obtain ⟨t, rest, -, hkind, rfl⟩ := read_escape_eq_some.1 h
    rw [PatternNode.Derives]
    exact ⟨t, rfl, hkind⟩
  | .capture name fragment position, ts, r, h => by
    obtain ⟨taken, rest, htake, rfl⟩ := read_capture_eq_some.1 h
    rw [PatternNode.Derives]
    exact Fragment.admits_of_take htake
  | .repetition inner separator q, ts, r, h => by
    rw [PatternNode.read] at h
    rw [PatternNode.Derives]
    exact rounds_of_readRepetition (Pattern.read_append inner) (Pattern.read_derives inner) h
  | .choice variants position, ts, r, h => by
    rw [PatternNode.read] at h
    rw [PatternNode.Derives]
    exact Pattern.readFirst_derives variants h
  | .lookahead inner, ts, r, h => by
    obtain ⟨hnone, rfl⟩ := read_lookahead_eq_some.1 h
    rw [PatternNode.Derives]
    exact ⟨rfl, hnone⟩

/-- A pattern stands for what it reads. -/
theorem Pattern.read_derives : ∀ (p : Pattern) {ts : List Token} {r : Reading},
    Pattern.read p ts = some r → Pattern.Derives p r.used r.rest
  | [], ts, r, h => by
    cases h
    rw [Pattern.Derives]
  | node :: nodes, ts, r, h => by
    obtain ⟨first, second, hfirst, hsecond, rfl⟩ := Pattern.read_cons_eq_some.1 h
    have hnode := PatternNode.read_derives node hfirst
    rw [← Pattern.read_append nodes hsecond] at hnode
    rw [Pattern.Derives]
    exact ⟨first.used, second.used, rfl, hnode, Pattern.read_derives nodes hsecond⟩

/-- A choice stands for what its first variant that matches reads. -/
theorem Pattern.readFirst_derives : ∀ (variants : List Pattern) {ts : List Token} {r : Reading},
    Pattern.readFirst variants ts = some r → Pattern.DerivesFirst variants r.used r.rest
  | [], ts, r, h => by cases h
  | variant :: variants, ts, r, h => by
    have happend := Pattern.readFirst_append (variant :: variants) h
    rw [Pattern.DerivesFirst, happend]
    rcases Pattern.readFirst_cons_eq_some.1 h with hfound | ⟨hnone, hrest⟩
    · exact .inl ⟨by rw [hfound]; rfl, Pattern.read_derives variant hfound⟩
    · exact .inr ⟨hnone, Pattern.readFirst_derives variants hrest⟩

end

/-- What a pattern reads at an index lies within the stream, and it is what the pattern stands
for. -/
theorem Pattern.readAt_derives {p : Pattern} {start : Nat} {found : Found}
    (hstart : start ≤ ts.length) (h : p.readAt ts start = some found) :
    start ≤ found.stop ∧ found.stop ≤ ts.length ∧
      Pattern.Derives p ((ts.drop start).take (found.stop - start)) (ts.drop found.stop) := by
  obtain ⟨r, hr, rfl⟩ := Option.map_eq_some_iff.1 h
  have happend := Pattern.read_append p hr
  have hlen := congrArg List.length happend
  rw [List.length_append, List.length_drop] at hlen
  refine ⟨Nat.le_add_right _ _, by simp only; omega, ?_⟩
  have htaken : (ts.drop start).take r.used.length = r.used := by
    rw [← happend, List.take_left]
  have hrest : ts.drop (start + r.used.length) = r.rest := by
    rw [← List.drop_drop, ← happend, List.drop_left]
  simp only [Nat.add_sub_cancel_left, htaken, hrest]
  exact Pattern.read_derives p hr

/-! ## Labels in a list -/

/-- Labels with commas between them, each a name or `a` and a tree, up to the end of the line,
which no semicolon ends. -/
def labelPattern : Pattern :=
  [.repetition [.choice [[.literal ⟨.name, "a", {}⟩, .capture "tree" .tree {}],
      [.capture "name" .name {}]] {}] (some ⟨.operator, ",", {}⟩) .atLeastOne,
    .lookahead [.literal ⟨.operator, ";", {}⟩], .escape .newline]

/-- The stream `; a ( b ) , c` and a newline. -/
def labelTokens : List Token :=
  [⟨.operator, ";", {}⟩, ⟨.name, "a", {}⟩, ⟨.opener, "(", {}⟩, ⟨.name, "b", {}⟩,
    ⟨.closer, ")", {}⟩, ⟨.operator, ",", {}⟩, ⟨.name, "c", {}⟩, ⟨.newline, "\n", {}⟩]

theorem readAt_derives_labels : 1 ≤ labelTokens.length ∧ ∃ found,
    labelPattern.readAt labelTokens 1 = some found ∧ found.stop = 8 ∧
      Pattern.Derives labelPattern (labelTokens.drop 1) [] := by
  have hstart : 1 ≤ labelTokens.length := by decide
  obtain ⟨found, hfound, hstop⟩ := Option.map_eq_some_iff.1
    (show (labelPattern.readAt labelTokens 1).map Found.stop = some 8 by decide +kernel)
  have h := (Pattern.readAt_derives hstart hfound).2.2
  rw [hstop] at h
  exact ⟨hstart, found, hfound, hstop, h⟩

end TokenMacros
