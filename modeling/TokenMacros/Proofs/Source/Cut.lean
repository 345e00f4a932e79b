import Mathlib.Data.Option.Basic

/-!
# Cutting a text behind a part

A reader takes a part off the head of a text. The readers of words look at what stands
behind their part only to see that the part ends there. So the part may be cut out, and
set apart from anything else by a space or a line feed:

    Cuts size f → f cs = some x → Separated b → f (cs.take (size x) ++ b) = some x
                                                           (Cuts.take)

`Cuts` passes from the alternatives of an ordered choice to the choice (`Cuts.orElse`),
and to a reader with an optional part behind it (`Cuts.add`).
-/

namespace TokenMacros.Source

/-- What stands behind a word: nothing, or else a space or a line feed first. -/
def Separated (rest : List Char) : Prop := ∀ c ∈ rest.head?, c = ' ' ∨ c = '\n'

/-- A reader that does not care what stands behind its own part, as long as that is set apart;
`size` is the length of the part. -/
structure Cuts {α : Type} (size : α → Nat) (f : List Char → Option α) : Prop where
  le : ∀ {cs x}, f cs = some x → size x ≤ cs.length
  cut : ∀ {a b b' x}, Separated b' → f (a ++ b) = some x → size x ≤ a.length → f (a ++ b') = some x
  fails : ∀ {a b b'}, Separated b' → f (a ++ b) = none → f (a ++ b') = none

namespace Cuts

variable {α β : Type} {size : α → Nat} {f g : List Char → Option α} {x : α} {b cs : List Char}

theorem orElse (hf : Cuts size f) (hg : Cuts size g) : Cuts size fun cs => f cs <|> g cs where
  le {cs x} h := by
    rcases (Option.orElse_eq_some _ _ _).1 h with h | ⟨-, h⟩
    · exact hf.le h
    · exact hg.le h
  cut {a b b' x} hb h hn := by
    rw [Option.orElse_eq_some]
    rcases (Option.orElse_eq_some _ _ _).1 h with h | ⟨hnone, h⟩
    · exact .inl (hf.cut hb h hn)
    · exact .inr ⟨hf.fails hb hnone, hg.cut hb h hn⟩
  fails {a b b'} hb h := by
    rw [Option.orElse_eq_none]
    obtain ⟨hf', hg'⟩ := (Option.orElse_eq_none _ _).1 h
    exact ⟨hf.fails hb hf', hg.fails hb hg'⟩

theorem map {size' : β → Nat} (hf : Cuts size f) (k : α → β) (hk : ∀ x, size' (k x) = size x) :
    Cuts size' fun cs => (f cs).map k where
  le {cs y} h := by
    obtain ⟨x, hx, rfl⟩ := Option.map_eq_some_iff.1 h
    rw [hk]
    exact hf.le hx
  cut {a b b' y} hb h hn := by
    obtain ⟨x, hx, rfl⟩ := Option.map_eq_some_iff.1 h
    rw [hk] at hn
    exact Option.map_eq_some_iff.2 ⟨x, hf.cut hb hx hn, rfl⟩
  fails {a b b'} hb h := by
    rw [Option.map_eq_none_iff] at h ⊢
    exact hf.fails hb h

/-- The part that is read is read again, whatever stands behind it. -/
theorem take (hf : Cuts size f) (h : f cs = some x) (hb : Separated b) :
    f (cs.take (size x) ++ b) = some x := by
  have hle := hf.le h
  refine hf.cut (b := cs.drop (size x)) hb (by rwa [List.take_append_drop]) ?_
  rw [List.length_take]
  omega

/-- The part that is read does not end with a line feed: without it, the same would be read. -/
theorem getLast?_take (hf : Cuts size f) (h : f cs = some x) :
    (cs.take (size x)).getLast? ≠ some '\n' := by
  intro hlast
  have hle := hf.le h
  have hself := hf.take h (b := []) (by simp [Separated])
  obtain ⟨front, hfront⟩ := List.getLast?_eq_some_iff.1 hlast
  have hlen : size x = front.length + 1 := by
    have := congrArg List.length hfront
    simp only [List.length_take, List.length_append, List.length_singleton] at this
    omega
  have hbreak : Separated ['\n'] := by simp [Separated]
  rw [hfront, List.append_nil] at hself
  cases hread : f (front ++ []) with
  | none =>
    rw [hf.fails hbreak hread] at hself
    cases hself
  | some y =>
    have hsize := hf.le hread
    rw [List.append_nil] at hsize
    rw [hf.cut hbreak hread hsize, Option.some.injEq] at hself
    subst hself
    omega

end Cuts

/-! ## Optional parts -/

/-- A reader of an optional part, with length 0 where it reads nothing, that does not care what
stands behind its part, as long as that is set apart. -/
structure CutsLength (g : List Char → Nat) : Prop where
  le : ∀ cs, g cs ≤ cs.length
  separated : ∀ {b}, Separated b → g b = 0
  cut_cons : ∀ {c a b b'}, Separated b' → g (c :: a ++ b) ≤ (c :: a).length →
    g (c :: a ++ b') = g (c :: a ++ b)

theorem CutsLength.cut {g : List Char → Nat} {a b b' : List Char} (hg : CutsLength g)
    (hb : Separated b') (h : g (a ++ b) ≤ a.length) : g (a ++ b') = g (a ++ b) := by
  cases a with
  | nil =>
    rw [List.nil_append, hg.separated hb]
    exact (Nat.le_zero.1 h).symm
  | cons c a => exact hg.cut_cons hb h

/-- A part, and then an optional one. -/
theorem Cuts.add {f : List Char → Option Nat} {g : List Char → Nat} (hf : Cuts id f)
    (hg : CutsLength g) : Cuts id fun cs => (f cs).map fun n => n + g (cs.drop n) where
  le {cs x} h := by
    obtain ⟨n, hn, rfl⟩ := Option.map_eq_some_iff.1 h
    have hfirst := hf.le hn
    have hsecond := hg.le (cs.drop n)
    rw [List.length_drop] at hsecond
    rw [id_eq] at hfirst ⊢
    omega
  cut {a b b' x} hb h hx := by
    obtain ⟨n, hn, rfl⟩ := Option.map_eq_some_iff.1 h
    rw [id_eq] at hx
    have hle : n ≤ a.length := by omega
    rw [List.drop_append_of_le_length hle] at hx ⊢
    refine Option.map_eq_some_iff.2 ⟨n, hf.cut hb hn hle, ?_⟩
    rw [List.drop_append_of_le_length hle, hg.cut hb]
    rw [List.length_drop]
    omega
  fails {a b b'} hb h := by
    rw [Option.map_eq_none_iff] at h ⊢
    exact hf.fails hb h

end TokenMacros.Source
