import TokenMacros.Proofs.Token.Balance

/-!
# Pairs and balanced parts

`PairsOf` gives the pairs of a balanced stream by recursion over its trees:

    ofTokens ts = .ok p ↔ PairsOf 0 ts p.pairs             (ofTokens_eq_ok_iff)

Both ends of a pair lie in a balanced part of a stream, or both lie outside:

    p.KeepsTogether a.length (a.length + u.length)         (keepsTogether_of_balanced)

for the pairing `p` of `a ++ u ++ b` and a balanced `u`.
-/

namespace TokenMacros

namespace Pairing

/-- No pair has one end at the indexes from `start` to `stop` and the other end elsewhere. -/
def KeepsTogether (p : Pairing) (start stop : Nat) : Prop :=
  ∀ i j, p.mate? i = some j → ((start ≤ i ∧ i < stop) ↔ (start ≤ j ∧ j < stop))

theorem mem_pairs_of_mate? {p : Pairing} {i j : Nat} (h : p.mate? i = some j) :
    (i, j) ∈ p.pairs ∨ (j, i) ∈ p.pairs := by
  obtain ⟨e, he, hf⟩ := List.exists_of_findSome?_eq_some h
  split at hf
  · next hi =>
    cases hf
    exact Or.inl (hi ▸ he)
  · split at hf
    · next hi =>
      cases hf
      exact Or.inr (hi ▸ he)
    · cases hf

/-- The pairs of a balanced stream that starts at an index: those inside each tree, the ends of the
tree, and those behind it. -/
inductive PairsOf : Nat → List Token → List (Nat × Nat) → Prop
  | nil {index : Nat} : PairsOf index [] []
  | plain {index : Nat} {t : Token} {ts : List Token} {ps : List (Nat × Nat)} :
      t.role = .plain → PairsOf (index + 1) ts ps → PairsOf index (t :: ts) ps
  | tree {index : Nat} {opener closer : Token} {d : Delimiter} {inner ts : List Token}
      {own more : List (Nat × Nat)} :
      opener.role = .opens d → closer.role = .closes d → PairsOf (index + 1) inner own →
      PairsOf (index + 1 + inner.length + 1) ts more →
      PairsOf index (opener :: inner ++ closer :: ts)
        (own ++ (index, index + 1 + inner.length) :: more)

theorem exists_pairsOf {u : List Token} (hu : Balanced u) (index : Nat) :
    ∃ own, PairsOf index u own := by
  induction hu generalizing index with
  | nil => exact ⟨[], .nil⟩
  | plain ht _ ih =>
    obtain ⟨own, hown⟩ := ih (index + 1)
    exact ⟨own, .plain ht hown⟩
  | @tree opener closer d inner ts ho hc _ _ ihInner ih =>
    obtain ⟨own, hown⟩ := ihInner (index + 1)
    obtain ⟨more, hmore⟩ := ih (index + 1 + inner.length + 1)
    exact ⟨_, .tree ho hc hown hmore⟩

section pairsOf

variable {index : Nat} {u : List Token} {own : List (Nat × Nat)}

theorem PairsOf.balanced (h : PairsOf index u own) : Balanced u := by
  induction h with
  | nil => exact .nil
  | plain ht _ ih => exact .plain ht ih
  | tree ho hc _ _ ihInner ih => exact .tree ho hc ihInner ih

/-- Where the tokens behind the tree of a stream start. -/
theorem index_behind_tree (index : Nat) (opener closer : Token) (inner ts : List Token) :
    index + (opener :: inner ++ closer :: ts).length
      = index + 1 + inner.length + 1 + ts.length := by
  simp only [List.cons_append, List.length_cons, List.length_append]
  omega

/-- A balanced part puts its own pairs in front, and leaves those around it alone. -/
theorem PairsOf.pairsFrom_eq (h : PairsOf index u own) (stack : List Pending) (b : List Token) :
    pairsFrom index stack (u ++ b) = (pairsFrom (index + u.length) stack b).map (own ++ ·) := by
  induction h generalizing stack b with
  | @nil index => cases h : pairsFrom index stack b <;> simp [Except.map, h]
  | plain ht _ ih =>
    rw [List.cons_append, pairsFrom, ht, ih, List.length_cons, Nat.add_right_comm, Nat.add_assoc]
  | @tree index opener closer d inner ts own more ho hc _ _ ihInner ih =>
    rw [index_behind_tree, List.append_assoc, List.cons_append, pairsFrom, ho]
    simp only
    rw [ihInner, List.cons_append, pairsFrom, hc]
    simp only [if_true]
    rw [ih]
    cases pairsFrom (index + 1 + inner.length + 1 + ts.length) stack b <;> simp [Except.map]

theorem PairsOf.bounds (h : PairsOf index u own) :
    ∀ e ∈ own, index ≤ e.1 ∧ e.1 < e.2 ∧ e.2 < index + u.length := by
  induction h with
  | nil => simp
  | plain _ _ ih =>
    intro e he
    have := ih e he
    rw [List.length_cons]
    omega
  | tree _ _ _ _ ihInner ih =>
    intro e he
    rw [index_behind_tree]
    rcases List.mem_append.1 he with he | he
    · have := ihInner e he
      omega
    · rcases List.mem_cons.1 he with rfl | he
      · simp only
        omega
      · have := ih e he
        omega

end pairsOf

/-- The pairs of a stream are those of its trees. -/
theorem ofTokens_eq_ok_iff {ts : List Token} {p : Pairing} :
    ofTokens ts = .ok p ↔ PairsOf 0 ts p.pairs := by
  have hpairs : ∀ {own}, PairsOf 0 ts own → ofTokens ts = .ok ⟨own⟩ := by
    intro own hown
    have heq := hown.pairsFrom_eq [] []
    rw [List.append_nil] at heq
    rw [ofTokens, heq]
    simp [pairsFrom, Except.map]
  constructor
  · intro h
    obtain ⟨own, hown⟩ := exists_pairsOf (ofTokens_ok_iff.1 ⟨p, h⟩) 0
    rw [hpairs hown] at h
    cases h
    exact hown
  · exact hpairs

/-- From `base` on, all closers stand behind it, and the openers there or below `low`. -/
theorem pairsFrom_bounds {ts : List Token} {base low index : Nat} {stack : List Pending}
    {ps : List (Nat × Nat)} (h : pairsFrom index stack ts = .ok ps) (hle : base ≤ index)
    (hstack : ∀ q ∈ stack, q.index < low ∨ base ≤ q.index) :
    ∀ e ∈ ps, (e.1 < low ∨ base ≤ e.1) ∧ base ≤ e.2 := by
  induction ts generalizing index stack ps with
  | nil =>
    cases stack with
    | nil =>
      cases h
      simp
    | cons q below => cases h
  | cons t ts ih =>
    rw [pairsFrom] at h
    cases hrole : t.role with
    | plain =>
      simp only [hrole] at h
      exact ih h (Nat.le_succ_of_le hle) hstack
    | opens d =>
      simp only [hrole] at h
      refine ih h (Nat.le_succ_of_le hle) fun q hq => ?_
      rcases List.mem_cons.1 hq with rfl | hq
      · exact Or.inr hle
      · exact hstack q hq
    | closes d =>
      simp only [hrole] at h
      cases stack with
      | nil => cases h
      | cons q below =>
        simp only at h
        split at h
        · obtain ⟨ps', hps, rfl⟩ := map_eq_ok_iff.1 h
          intro e he
          rcases List.mem_cons.1 he with rfl | he
          · exact ⟨hstack q List.mem_cons_self, hle⟩
          · exact ih hps (Nat.le_succ_of_le hle)
              (fun r hr => hstack r (List.mem_cons_of_mem _ hr)) e he
        · cases h

/-- The pairs of a stream are those with their closers in its first part, and those that the rest
adds to the openers left. -/
theorem pairsFrom_append {a b : List Token} {index : Nat} {stack : List Pending}
    {ps : List (Nat × Nat)} (h : pairsFrom index stack (a ++ b) = .ok ps)
    (hstack : ∀ q ∈ stack, q.index < index) :
    ∃ first stack' second, ps = first ++ second ∧
      (∀ e ∈ first, e.1 < index + a.length ∧ e.2 < index + a.length) ∧
      (∀ q ∈ stack', q.index < index + a.length) ∧
      pairsFrom (index + a.length) stack' b = .ok second := by
  induction a generalizing index stack ps with
  | nil => exact ⟨[], stack, ps, rfl, by simp, hstack, h⟩
  | cons t a ih =>
    have hlen : index + (t :: a).length = index + 1 + a.length := by
      rw [List.length_cons]
      omega
    rw [List.cons_append, pairsFrom] at h
    rw [hlen]
    cases hrole : t.role with
    | plain =>
      simp only [hrole] at h
      exact ih h fun q hq => Nat.lt_succ_of_lt (hstack q hq)
    | opens d =>
      simp only [hrole] at h
      refine ih h fun q hq => ?_
      rcases List.mem_cons.1 hq with rfl | hq
      · exact Nat.lt_succ_self index
      · exact Nat.lt_succ_of_lt (hstack q hq)
    | closes d =>
      simp only [hrole] at h
      cases stack with
      | nil => cases h
      | cons q below =>
        simp only at h
        split at h
        · obtain ⟨ps', hps, rfl⟩ := map_eq_ok_iff.1 h
          obtain ⟨first, stack', second, rfl, hfirst, hstack', hsecond⟩ := ih hps fun r hr =>
            Nat.lt_succ_of_lt (hstack r (List.mem_cons_of_mem _ hr))
          refine ⟨(q.index, index) :: first, stack', second, rfl, fun e he => ?_, hstack',
            hsecond⟩
          rcases List.mem_cons.1 he with rfl | he
          · have := hstack q List.mem_cons_self
            simp only
            omega
          · exact hfirst e he
        · cases h

/-- No pair leaves a balanced part of a stream. -/
theorem keepsTogether_of_balanced {a u b : List Token} {p : Pairing} (hu : Balanced u)
    (h : ofTokens (a ++ u ++ b) = .ok p) : p.KeepsTogether a.length (a.length + u.length) := by
  rw [ofTokens, List.append_assoc] at h
  obtain ⟨ps, hps, rfl⟩ := map_eq_ok_iff.1 h
  obtain ⟨first, stack, second, rfl, hfirst, hstack, hsecond⟩ := pairsFrom_append hps (by simp)
  rw [Nat.zero_add] at hfirst hstack hsecond
  obtain ⟨own, hpairs⟩ := exists_pairsOf hu a.length
  have hown := hpairs.bounds
  rw [hpairs.pairsFrom_eq] at hsecond
  obtain ⟨last, hlast, rfl⟩ := map_eq_ok_iff.1 hsecond
  have hlow := pairsFrom_bounds hlast (Nat.le_refl _) fun q hq => Or.inl (hstack q hq)
  have key : ∀ e ∈ first ++ (own ++ last), (a.length ≤ e.1 ∧ e.1 < a.length + u.length) ↔
      (a.length ≤ e.2 ∧ e.2 < a.length + u.length) := by
    intro e he
    rcases List.mem_append.1 he with he | he
    · have := hfirst e he
      omega
    · rcases List.mem_append.1 he with he | he
      · have := hown e he
        omega
      · have := hlow e he
        omega
  intro i j hij
  rcases mem_pairs_of_mate? hij with he | he
  · exact key _ he
  · exact (key _ he).symm

end Pairing

end TokenMacros
