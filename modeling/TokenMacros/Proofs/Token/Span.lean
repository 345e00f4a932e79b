import TokenMacros.Proofs.Token.Mates

/-!
# Spans of trees

The bounds of a tree are told by the grammar alone, whatever else the stream holds; in a
balanced stream they are those of a pair:

    treeSpan ts start = .ok (first, stop) ↔ first = start ∧ stop ≤ ts.length ∧
      TokenTree (the tokens from start to stop)            (treeSpan_eq_ok_iff)
    Pairing.ofTokens ts = .ok p → a tree starts at every token that is no closer, and the one
      of an opener ends with its mate                      (treeSpan_agrees)
-/

namespace TokenMacros

variable {ts tree rest : List Token} {start first stop stop' : Nat} {p : Pairing}

/-! ## The tree at an index -/

theorem treeSpan_eq_ok {span : Nat × Nat} : treeSpan ts start = .ok span ↔
    ∃ tree rest, splitTree (ts.drop start) = .ok (tree, rest) ∧
      span = (start, start + tree.length) := by
  rw [treeSpan]
  cases ts.drop start with
  | nil => simp [splitTree_nil]
  | cons t us =>
    rw [map_eq_ok_iff]
    constructor
    · rintro ⟨⟨tree, rest⟩, hsplit, rfl⟩
      exact ⟨tree, rest, hsplit, rfl⟩
    · rintro ⟨tree, rest, hsplit, rfl⟩
      exact ⟨(tree, rest), hsplit, rfl⟩

/-- What stands behind an index are the tokens up to where it ends. -/
theorem take_of_append_eq_drop (happend : tree ++ rest = ts.drop start) (hne : tree ≠ []) :
    start + tree.length ≤ ts.length ∧ (ts.drop start).take tree.length = tree := by
  have hpos := List.length_pos_iff.2 hne
  have hlen := congrArg List.length happend
  rw [List.length_append, List.length_drop] at hlen
  exact ⟨by omega, by rw [← happend, List.take_left]⟩

/-- The bounds of a tree are those of the tokens that make a tree. -/
theorem treeSpan_eq_ok_iff : treeSpan ts start = .ok (first, stop) ↔
    first = start ∧ stop ≤ ts.length ∧ TokenTree ((ts.drop start).take (stop - start)) := by
  rw [treeSpan_eq_ok]
  constructor
  · rintro ⟨tree, rest, hsplit, heq⟩
    obtain ⟨rfl, rfl⟩ := Prod.mk.inj heq
    obtain ⟨htree, happend⟩ := splitTree_eq_ok_iff.1 hsplit
    obtain ⟨hle, htake⟩ := take_of_append_eq_drop happend htree.ne_nil
    rw [Nat.add_sub_cancel_left, htake]
    exact ⟨rfl, hle, htree⟩
  · rintro ⟨rfl, hle, htree⟩
    have hlen : ((ts.drop first).take (stop - first)).length = stop - first := by
      rw [List.length_take, List.length_drop]
      omega
    have hpos := List.length_pos_iff.2 htree.ne_nil
    refine ⟨_, (ts.drop first).drop (stop - first),
      splitTree_eq_ok_iff.2 ⟨htree, List.take_append_drop _ _⟩, ?_⟩
    rw [hlen, Nat.add_sub_cancel' (by omega)]

/-- There is one tree at most that starts at an index. -/
theorem treeSpan_unique (h : treeSpan ts start = .ok (start, stop))
    (h' : treeSpan ts start = .ok (start, stop')) : stop = stop' := by
  rw [h] at h'
  cases h'
  rfl

/-! ## Trees and mates -/

/-- The tree of an opener ends with its mate. -/
theorem treeSpan_of_mate (h : Pairing.PairsOf 0 ts p.pairs) {mate : Nat}
    (hmate : p.mate? start = some mate) (hlt : start < mate) :
    treeSpan ts start = .ok (start, mate + 1) := by
  obtain ⟨a, opener, inner, closer, b, d, rfl, ho, hc, hinner, heq⟩ :=
    h.group _ (h.mem_of_lt hmate hlt)
  rw [Nat.zero_add] at heq
  obtain ⟨rfl, rfl⟩ := Prod.mk.inj heq
  refine treeSpan_eq_ok.2 ⟨opener :: inner ++ [closer], b, ?_, ?_⟩
  · rw [List.drop_left, List.cons_append]
    exact (splitTree_opens_iff ho).2 ⟨inner, closer, hc, hinner, rfl, rfl⟩
  · simp only [List.cons_append, List.length_cons, List.length_append, List.length_nil,
      Prod.mk.injEq, true_and]
    omega

/-- A tree starts with a token that is no closer. -/
theorem exists_head_of_treeSpan (h : treeSpan ts start = .ok (first, stop)) :
    ∃ t, ts[start]? = some t ∧ ∀ d, t.role ≠ .closes d := by
  obtain ⟨tree, rest, hsplit, -⟩ := treeSpan_eq_ok.1 h
  obtain ⟨htree, happend⟩ := splitTree_eq_ok_iff.1 hsplit
  have hhead : ts[start]? = (tree ++ rest)[0]? := by
    rw [happend, List.getElem?_drop, Nat.add_zero]
  rw [hhead]
  cases htree with
  | @leaf t ht => exact ⟨t, rfl, fun d => by simp [ht]⟩
  | @group opener closer d inner ho _ _ => exact ⟨opener, rfl, fun d => by simp [ho]⟩

/-- A plain token is a tree by itself. -/
theorem treeSpan_of_plain {t : Token} (ht : ts[start]? = some t) (hplain : t.role = .plain) :
    treeSpan ts start = .ok (start, start + 1) := by
  obtain ⟨hlt, hget⟩ := List.getElem?_eq_some_iff.1 ht
  refine treeSpan_eq_ok_iff.2 ⟨rfl, hlt, ?_⟩
  rw [Nat.add_sub_cancel_left, List.drop_eq_getElem_cons hlt, hget]
  exact .leaf hplain

/-- The tree at an index is where the grammar has one, and there is no other; in a balanced stream
that is at every token but the closers, and the tree of an opener ends with its mate. -/
theorem treeSpan_agrees (ts : List Token) (start : Nat) :
    (∀ first stop, treeSpan ts start = .ok (first, stop) ↔
      first = start ∧ stop ≤ ts.length ∧ TokenTree ((ts.drop start).take (stop - start))) ∧
    (∀ stop stop', stop ≤ ts.length → stop' ≤ ts.length →
      TokenTree ((ts.drop start).take (stop - start)) →
      TokenTree ((ts.drop start).take (stop' - start)) → stop = stop') ∧
    ∀ p, Pairing.ofTokens ts = .ok p →
      ((∃ stop, treeSpan ts start = .ok (start, stop)) ↔
        ∃ t, ts[start]? = some t ∧ ∀ d, t.role ≠ .closes d) ∧
      ∀ t d, ts[start]? = some t → t.role = .opens d →
        ∃ mate, p.mate? start = some mate ∧ treeSpan ts start = .ok (start, mate + 1) := by
  refine ⟨fun first stop => treeSpan_eq_ok_iff, ?_, fun p hp => ?_⟩
  · intro stop stop' hle hle' htree htree'
    exact treeSpan_unique (treeSpan_eq_ok_iff.2 ⟨rfl, hle, htree⟩)
      (treeSpan_eq_ok_iff.2 ⟨rfl, hle', htree'⟩)
  · have hpairs := Pairing.ofTokens_eq_ok_iff.1 hp
    have hopener : ∀ t d, ts[start]? = some t → t.role = .opens d →
        ∃ mate, p.mate? start = some mate ∧ treeSpan ts start = .ok (start, mate + 1) := by
      intro t d ht hd
      obtain ⟨mate, _, hmate, hlt, -, -⟩ := hpairs.mates.closes start t d ht hd
      exact ⟨mate, hmate, treeSpan_of_mate hpairs hmate hlt⟩
    refine ⟨⟨fun ⟨stop, h⟩ => exists_head_of_treeSpan h, ?_⟩, hopener⟩
    rintro ⟨t, ht, hcloser⟩
    cases hrole : t.role with
    | plain => exact ⟨start + 1, treeSpan_of_plain ht hrole⟩
    | opens d =>
      obtain ⟨mate, -, hspan⟩ := hopener t d ht hrole
      exact ⟨mate + 1, hspan⟩
    | closes d => exact absurd hrole (hcloser d)

theorem treeSpan_agrees_blockCall : ∃ p, Pairing.ofTokens blockCall = .ok p ∧
    p.mate? 1 = some 7 ∧ treeSpan blockCall 1 = .ok (1, 8) ∧
      TokenTree ((blockCall.drop 1).take 7) := by
  have hp : Pairing.ofTokens blockCall = .ok ⟨[(2, 3), (4, 6), (1, 7)]⟩ := rfl
  obtain ⟨hspan, -, hpairs⟩ := treeSpan_agrees blockCall 1
  obtain ⟨mate, hmate, htree⟩ := (hpairs _ hp).2 ⟨.opener, "(", {}⟩ .paren rfl rfl
  cases hmate
  exact ⟨_, hp, rfl, htree, ((hspan 1 8).1 htree).2.2⟩

end TokenMacros
