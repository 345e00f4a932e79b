import Mathlib.Data.List.Pairwise
import TokenMacros.Proofs.Token.Pairing
import TokenMacros.Proofs.Token.Tree

/-!
# Mates

The pairing of a balanced stream leads from each end of a tree to the other:

    Pairing.ofTokens ts = .ok p for a p ↔ Balanced ts, and then p.Mates ts
                                                           (ofTokens_mates)

`PairsOf` tells all that is needed of the pairs: each is the two ends of a tree of the
stream (`PairsOf.group`), each end of a tree is in one (`PairsOf.covers`), and of two
pairs one stands before or inside the other (`PairsOf.apart`).
-/

namespace TokenMacros

namespace Pairing

/-- What makes a pairing right for a stream. -/
structure Mates (p : Pairing) (ts : List Token) : Prop where
  /-- The delimiters have mates, and nothing else has. -/
  defined : ∀ i, (∃ j, p.mate? i = some j) ↔ ∃ t, ts[i]? = some t ∧ t.isDelimiter = true
  symm : ∀ i j, p.mate? i = some j → p.mate? j = some i
  /-- The mate of an opener is a closer of its category, further on. -/
  closes : ∀ i t d, ts[i]? = some t → t.role = .opens d →
    ∃ j u, p.mate? i = some j ∧ i < j ∧ ts[j]? = some u ∧ u.role = .closes d
  balanced : ∀ i j, p.mate? i = some j → i < j →
    Balanced ((ts.drop (i + 1)).take (j - (i + 1)))
  /-- Between two mates stand no mates of outer tokens. -/
  nested : ∀ i j k l, p.mate? i = some j → p.mate? k = some l → i < k → k < j → i < l ∧ l < j

/-- The pair `e` ends before `f`, or stands inside it. -/
def Apart (e f : Nat × Nat) : Prop := e.2 < f.1 ∨ f.1 < e.1 ∧ e.2 < f.2

/-- The tokens at the two indexes are the ends of a tree of the stream, which starts at `index`. -/
def Group (index : Nat) (ts : List Token) (e : Nat × Nat) : Prop :=
  ∃ a opener inner closer b d, ts = a ++ (opener :: inner ++ closer :: b) ∧
    opener.role = .opens d ∧ closer.role = .closes d ∧ Balanced inner ∧
    e = (index + a.length, index + a.length + 1 + inner.length)

variable {index : Nat} {ts : List Token} {ps : List (Nat × Nat)} {p : Pairing} {i j : Nat}

/-! ## Pairs -/

/-- A tree of a part is a tree of the whole. -/
theorem Group.within {inner : List Token} {e : Nat × Nat} (a b : List Token)
    (h : Group (index + a.length) inner e) : Group index (a ++ inner ++ b) e := by
  obtain ⟨a', opener, body, closer, b', d, rfl, ho, hc, hbody, rfl⟩ := h
  refine ⟨a ++ a', opener, body, closer, b' ++ b, d, by simp, ho, hc, hbody, ?_⟩
  rw [List.length_append, Nat.add_assoc index]

theorem PairsOf.group (h : PairsOf index ts ps) : ∀ e ∈ ps, Group index ts e := by
  induction h with
  | nil => simp
  | @plain index t ts ps _ _ ih =>
    intro e he
    have := Group.within [t] [] (ih e he)
    rwa [List.append_nil] at this
  | @tree index opener closer d inner ts own more ho hc hinner _ ihInner ih =>
    intro e he
    rcases List.mem_append.1 he with he | he
    · exact Group.within [opener] (closer :: ts) (ihInner e he)
    · rcases List.mem_cons.1 he with rfl | he
      · exact ⟨[], opener, inner, closer, ts, d, rfl, ho, hc, hinner.balanced, rfl⟩
      · have hindex : index + 1 + inner.length + 1
            = index + (opener :: inner ++ [closer]).length := by
          simp only [List.cons_append, List.length_cons, List.length_append, List.length_nil]
          omega
        have hgroup := ih e he
        rw [hindex] at hgroup
        have := Group.within (opener :: inner ++ [closer]) [] hgroup
        rwa [List.append_nil, List.append_assoc, List.singleton_append] at this

/-- Every delimiter is an end of a pair. -/
theorem PairsOf.covers (h : PairsOf index ts ps) {k : Nat} {t : Token} (hk : ts[k]? = some t)
    (ht : t.isDelimiter = true) : ∃ e ∈ ps, e.1 = index + k ∨ e.2 = index + k := by
  induction h generalizing k with
  | nil => cases hk
  | @plain index u ts ps hu _ ih =>
    cases k with
    | zero =>
      cases hk
      rw [Token.isDelimiter_eq_false_iff.2 hu] at ht
      cases ht
    | succ k =>
      obtain ⟨e, he, hend⟩ := ih hk
      exact ⟨e, he, by omega⟩
  | @tree index opener closer d inner ts own more _ _ _ _ ihInner ih =>
    cases k with
    | zero => exact ⟨(index, index + 1 + inner.length), by simp, Or.inl rfl⟩
    | succ k =>
      rw [List.cons_append, List.getElem?_cons_succ] at hk
      rcases Nat.lt_trichotomy k inner.length with hlt | heq | hgt
      · rw [List.getElem?_append_left hlt] at hk
        obtain ⟨e, he, hend⟩ := ihInner hk
        exact ⟨e, List.mem_append_left _ he, by omega⟩
      · exact ⟨(index, index + 1 + inner.length), by simp, Or.inr (by simp only; omega)⟩
      · obtain ⟨m, rfl⟩ : ∃ m, k = inner.length + 1 + m := ⟨k - (inner.length + 1), by omega⟩
        rw [List.getElem?_append_right (by omega), Nat.add_assoc, Nat.add_sub_cancel_left,
          Nat.add_comm, List.getElem?_cons_succ] at hk
        obtain ⟨e, he, hend⟩ := ih hk
        exact ⟨e, List.mem_append_right _ (List.mem_cons_of_mem _ he), by omega⟩

/-- A pair comes before those that stand behind it or around it. -/
theorem PairsOf.apart (h : PairsOf index ts ps) : ps.Pairwise Apart := by
  induction h with
  | nil => exact .nil
  | plain _ _ ih => exact ih
  | tree _ _ hinner hbehind ihInner ih =>
    refine List.pairwise_append.2 ⟨ihInner, List.pairwise_cons.2 ⟨?_, ih⟩, ?_⟩
    · intro f hf
      have := hbehind.bounds f hf
      exact Or.inl (by simp only; omega)
    · intro e he f hf
      have hin := hinner.bounds e he
      rcases List.mem_cons.1 hf with rfl | hf
      · exact Or.inr (by simp only; omega)
      · have := hbehind.bounds f hf
        exact Or.inl (by omega)

/-! ## Mates -/

/-- Pairs that are apart have no end in common. -/
theorem Apart.ne {e f : Nat × Nat} (h : Apart e f) (he : e.1 < e.2) (hf : f.1 < f.2) :
    (e.1 ≠ f.1 ∧ e.1 ≠ f.2) ∧ e.2 ≠ f.1 ∧ e.2 ≠ f.2 := by
  rw [Apart] at h
  omega

/-- The mate of an index is the other end of its pair. -/
theorem mate?_eq_some_iff (hlt : ∀ e ∈ p.pairs, e.1 < e.2) (hapart : p.pairs.Pairwise Apart) :
    p.mate? i = some j ↔ (i, j) ∈ p.pairs ∨ (j, i) ∈ p.pairs := by
  refine ⟨mem_pairs_of_mate?, fun h => ?_⟩
  obtain ⟨pairs⟩ := p
  simp only [mate?] at *
  induction pairs with
  | nil => simp at h
  | cons e rest ih =>
    rw [List.forall_mem_cons] at hlt
    rw [List.pairwise_cons] at hapart
    -- the first pair is the one sought, or it touches neither index
    have key : (i, j) = e ∨ (j, i) = e ∨ ((i, j) ∈ rest ∨ (j, i) ∈ rest) := by
      rcases h with h | h
      · exact (List.mem_cons.1 h).imp_right fun h => Or.inr (Or.inl h)
      · exact Or.inr ((List.mem_cons.1 h).imp_right Or.inr)
    rw [List.findSome?_cons]
    rcases key with rfl | rfl | hrest
    · simp
    · have hne : ¬ j = i := Nat.ne_of_lt hlt.1
      simp [hne]
    · have hne : e.1 ≠ i ∧ e.2 ≠ i := by
        rcases hrest with hmem | hmem
        · have := (hapart.1 _ hmem).ne hlt.1 (hlt.2 _ hmem)
          exact ⟨this.1.1, this.2.1⟩
        · have := (hapart.1 _ hmem).ne hlt.1 (hlt.2 _ hmem)
          exact ⟨this.1.2, this.2.2⟩
      rw [if_neg hne.1, if_neg hne.2]
      exact ih hlt.2 hapart.2 hrest

theorem PairsOf.mate?_eq_some_iff (h : PairsOf index ts p.pairs) :
    p.mate? i = some j ↔ (i, j) ∈ p.pairs ∨ (j, i) ∈ p.pairs :=
  Pairing.mate?_eq_some_iff (fun e he => (h.bounds e he).2.1) h.apart

/-- Of two pairs, one is the other, ends before it, or stands inside it. -/
theorem PairsOf.apart_of_mem (h : PairsOf index ts ps) {e f : Nat × Nat} (he : e ∈ ps)
    (hf : f ∈ ps) : e = f ∨ Apart e f ∨ Apart f e := by
  have hsymm : Std.Symm fun e f => Apart e f ∨ Apart f e := ⟨fun _ _ => Or.symm⟩
  have hany : ps.Pairwise fun e f => Apart e f ∨ Apart f e := h.apart.imp Or.inl
  by_cases heq : e = f
  · exact Or.inl heq
  · exact Or.inr (hany.forall he hf heq)

/-- One end of a pair stands inside another pair if the other end does. -/
theorem PairsOf.inside_iff (h : PairsOf index ts ps) {k l : Nat} (hij : (i, j) ∈ ps)
    (hkl : (k, l) ∈ ps) : i < k ∧ k < j ↔ i < l ∧ l < j := by
  have hbounds := h.bounds _ hij
  have hbounds' := h.bounds _ hkl
  have := h.apart_of_mem hij hkl
  simp only [Apart, Prod.mk.injEq] at this hbounds hbounds'
  omega

theorem PairsOf.mem_of_lt (h : PairsOf index ts p.pairs) (hij : p.mate? i = some j)
    (hlt : i < j) : (i, j) ∈ p.pairs := by
  rcases h.mate?_eq_some_iff.1 hij with hmem | hmem
  · exact hmem
  · have := h.bounds _ hmem
    simp only at this
    omega

theorem Group.ends (h : Group 0 ts (i, j)) : ∃ opener closer d, ts[i]? = some opener ∧
    ts[j]? = some closer ∧ opener.role = .opens d ∧ closer.role = .closes d := by
  obtain ⟨a, opener, inner, closer, b, d, rfl, ho, hc, -, heq⟩ := h
  rw [Nat.zero_add, Prod.mk.injEq] at heq
  obtain ⟨rfl, rfl⟩ := heq
  refine ⟨opener, closer, d, by simp, ?_, ho, hc⟩
  rw [List.getElem?_append_right (by omega), Nat.add_assoc, Nat.add_sub_cancel_left,
    Nat.add_comm, List.cons_append, List.getElem?_cons_succ]
  simp

theorem Group.balanced_between (h : Group 0 ts (i, j)) :
    Balanced ((ts.drop (i + 1)).take (j - (i + 1))) := by
  obtain ⟨a, opener, inner, closer, b, d, rfl, -, -, hinner, heq⟩ := h
  rw [Nat.zero_add, Prod.mk.injEq] at heq
  obtain ⟨rfl, rfl⟩ := heq
  simpa using hinner

/-- The pairs of a balanced stream make a right pairing. -/
theorem PairsOf.mates (h : PairsOf 0 ts p.pairs) : p.Mates ts where
  defined i := by
    constructor
    · rintro ⟨j, hij⟩
      rcases h.mate?_eq_some_iff.1 hij with hmem | hmem
      · obtain ⟨opener, _, d, hopener, -, ho, -⟩ := (h.group _ hmem).ends
        exact ⟨opener, hopener, by rw [Token.isDelimiter, ho]⟩
      · obtain ⟨_, closer, d, -, hcloser, -, hc⟩ := (h.group _ hmem).ends
        exact ⟨closer, hcloser, by rw [Token.isDelimiter, hc]⟩
    · rintro ⟨t, hi, ht⟩
      obtain ⟨⟨first, last⟩, hmem, hend⟩ := h.covers hi ht
      rw [Nat.zero_add] at hend
      rcases hend with rfl | rfl
      · exact ⟨last, h.mate?_eq_some_iff.2 (Or.inl hmem)⟩
      · exact ⟨first, h.mate?_eq_some_iff.2 (Or.inr hmem)⟩
  symm i j hij := h.mate?_eq_some_iff.2 (h.mate?_eq_some_iff.1 hij).symm
  closes i t d hi ht := by
    have hdelimiter : t.isDelimiter = true := by rw [Token.isDelimiter, ht]
    obtain ⟨⟨first, last⟩, hmem, hend⟩ := h.covers hi hdelimiter
    obtain ⟨opener, closer, d', hopener, hcloser, ho, hc⟩ := (h.group _ hmem).ends
    have hlt := h.bounds _ hmem
    rw [Nat.zero_add] at hend
    rcases hend with rfl | rfl
    · rw [hopener] at hi
      cases hi
      rw [ho] at ht
      cases ht
      exact ⟨last, closer, h.mate?_eq_some_iff.2 (Or.inl hmem), hlt.2.1, hcloser, hc⟩
    · -- a closer is no opener
      rw [hcloser] at hi
      cases hi
      rw [hc] at ht
      cases ht
  balanced i j hij hlt := (h.group _ (h.mem_of_lt hij hlt)).balanced_between
  nested i j k l hij hkl hik hkj := by
    have hmem := h.mem_of_lt hij (Nat.lt_trans hik hkj)
    rcases h.mate?_eq_some_iff.1 hkl with hmem' | hmem'
    · exact (h.inside_iff hmem hmem').1 ⟨hik, hkj⟩
    · exact (h.inside_iff hmem hmem').2 ⟨hik, hkj⟩

/-- A stream is paired off exactly if it is balanced, and then every delimiter is paired with the
other end of its tree. -/
theorem ofTokens_mates (ts : List Token) :
    ((∃ p, ofTokens ts = .ok p) ↔ Balanced ts) ∧ ∀ p, ofTokens ts = .ok p → p.Mates ts :=
  ⟨ofTokens_ok_iff, fun _ hp => (ofTokens_eq_ok_iff.1 hp).mates⟩

end Pairing

/-! ## A block in a call -/

/-- The stream `f ( [ ] <indent> x <dedent> )`. -/
def blockCall : List Token :=
  [⟨.name, "f", {}⟩, ⟨.opener, "(", {}⟩, ⟨.opener, "[", {}⟩, ⟨.closer, "]", {}⟩, .indent {},
    ⟨.name, "x", {}⟩, .dedent {}, ⟨.closer, ")", {}⟩]

theorem ofTokens_mates_blockCall : ∃ p, Pairing.ofTokens blockCall = .ok p ∧
    p.mate? 1 = some 7 ∧ p.mate? 7 = some 1 ∧ p.mate? 4 = some 6 ∧ Balanced blockCall ∧
      Balanced ((blockCall.drop 2).take 5) := by
  have hp : Pairing.ofTokens blockCall = .ok ⟨[(2, 3), (4, 6), (1, 7)]⟩ := rfl
  obtain ⟨hiff, hmates⟩ := Pairing.ofTokens_mates blockCall
  have h := hmates _ hp
  exact ⟨_, hp, rfl, h.symm 1 7 rfl, rfl, hiff.1 ⟨_, hp⟩, h.balanced 1 7 rfl (by decide)⟩

end TokenMacros
