import TokenMacros.Proofs.Table
import TokenMacros.Rule.Basic
import TokenMacros.Rule.Reading

/-!
# The captures of a checked pattern

The check of a rule and the reading of a stream find the captures of a pattern by
different walks. On a pattern that passes the check they agree, name by name and in
the same order:

    seen.names.Nodup → Pattern.addDepths depth p seen = .ok seen' →
      seen'.entries = seen.entries ++ (Pattern.slots depth p).map Slot.entry
                                                           (Pattern.addDepths_eq_ok)

Such a pattern is well named at every node.
-/

namespace TokenMacros

namespace Slot

/-- The entry of a slot in a table of depths. -/
def entry (s : Slot) : String × Nat := (s.name, s.depth)

/-- The slot with `k` more repetitions around it. -/
def deeper (k : Nat) (s : Slot) : Slot := ⟨s.name, s.depth + k⟩

theorem entry_injective : Function.Injective entry := by
  rintro ⟨name, depth⟩ ⟨name', depth'⟩ h
  cases h
  rfl

theorem deeper_injective (k : Nat) : Function.Injective (deeper k) := by
  rintro ⟨name, depth⟩ ⟨name', depth'⟩ h
  simp only [deeper, Slot.mk.injEq] at h
  obtain ⟨rfl, h⟩ := h
  rw [Nat.add_right_cancel h]

end Slot

/-! ## Depths of slots -/

mutual

/-- More repetitions around a node are around all its captures. -/
theorem PatternNode.slots_add (k : Nat) : ∀ (node : PatternNode) (depth : Nat),
    node.slots (depth + k) = (node.slots depth).map (Slot.deeper k)
  | .literal _, _ => rfl
  | .escape _, _ => rfl
  | .capture _ _ _, _ => rfl
  | .lookahead _, _ => rfl
  | .repetition inner _ _, depth => by
    rw [PatternNode.slots, PatternNode.slots, Nat.add_right_comm, Pattern.slots_add k inner]
  | .choice variants _, depth => by
    rw [PatternNode.slots, PatternNode.slots, Pattern.slotsOfFirst_add k variants]

theorem Pattern.slots_add (k : Nat) : ∀ (p : Pattern) (depth : Nat),
    Pattern.slots (depth + k) p = (Pattern.slots depth p).map (Slot.deeper k)
  | [], _ => rfl
  | node :: nodes, depth => by
    rw [Pattern.slots, Pattern.slots, List.map_append, PatternNode.slots_add k node,
      Pattern.slots_add k nodes]

theorem Pattern.slotsOfFirst_add (k : Nat) : ∀ (variants : List Pattern) (depth : Nat),
    Pattern.slotsOfFirst (depth + k) variants
      = (Pattern.slotsOfFirst depth variants).map (Slot.deeper k)
  | [], _ => rfl
  | variant :: _, depth => Pattern.slots_add k variant depth

end

theorem Pattern.slots_eq_map (depth : Nat) (p : Pattern) :
    Pattern.slots depth p = (Pattern.slots 0 p).map (Slot.deeper depth) := by
  rw [← Pattern.slots_add, Nat.zero_add]

/-- The repetitions around a pattern do not count for the names of its captures. -/
theorem Pattern.map_name_slots (depth : Nat) (p : Pattern) :
    (Pattern.slots depth p).map Slot.name = (Pattern.slots 0 p).map Slot.name := by
  rw [Pattern.slots_eq_map, List.map_map]
  rfl

/-! ## Well-named patterns -/

mutual

/-- The captures inside a node have names of their own. -/
def PatternNode.WellNamed : PatternNode → Prop
  | .literal _ | .escape _ | .capture _ _ _ | .lookahead _ => True
  | .repetition inner _ _ => Pattern.WellNamed inner
  | .choice variants _ => Pattern.VariantsWellNamed (Pattern.slotsOfFirst 0 variants) variants

/-- The captures of a pattern have names of their own, except that those in the variants of a
choice are the same. -/
def Pattern.WellNamed : Pattern → Prop
  | [] => True
  | node :: nodes => node.WellNamed ∧ Pattern.WellNamed nodes ∧
      ((Pattern.slots 0 (node :: nodes)).map Slot.name).Nodup

/-- All variants are well named, and have the captures `shared`. -/
def Pattern.VariantsWellNamed (shared : List Slot) : List Pattern → Prop
  | [] => True
  | variant :: variants => Pattern.WellNamed variant ∧ (Pattern.slots 0 variant).Perm shared ∧
      Pattern.VariantsWellNamed shared variants

end

theorem Pattern.WellNamed.nodup {p : Pattern} (h : p.WellNamed) :
    ((Pattern.slots 0 p).map Slot.name).Nodup := by
  cases p with
  | nil => exact List.nodup_nil
  | cons node nodes =>
    rw [Pattern.WellNamed] at h
    exact h.2.2

/-! ## Adding depths -/

namespace Depths

variable {position : Position} {seen seen' : Depths}

theorem add_eq_ok {name : String} {depth : Nat} :
    seen.add name depth position = .ok seen' ↔
      seen.find? name = none ∧ seen.insert name depth = seen' := by
  unfold add
  split
  · next h =>
    rw [Table.contains, Option.isSome_iff_ne_none] at h
    simp [h]
  · next h =>
    rw [Table.contains, Option.isSome_iff_ne_none, not_not] at h
    simp [h]

/-- Adding one entry after the other puts them all at the end. -/
theorem addAll_eq_ok {entries : List (String × Nat)}
    (h : Depths.addAll position entries seen = .ok seen') (hseen : seen.names.Nodup) :
    seen'.entries = seen.entries ++ entries ∧ seen'.names.Nodup := by
  induction entries generalizing seen with
  | nil =>
    cases h
    exact ⟨(List.append_nil _).symm, hseen⟩
  | cons e rest ih =>
    rw [addAll] at h
    split at h
    · cases h
    · next hadd =>
      obtain ⟨hnew, rfl⟩ := add_eq_ok.1 hadd
      obtain ⟨hentries, hnodup⟩ := ih h (Table.nodup_insert hseen)
      refine ⟨?_, hnodup⟩
      rw [hentries, Table.entries_insert hnew, List.append_assoc, List.singleton_append]

end Depths

/-- Tables that are the same at one depth are the same slots. -/
theorem perm_slots_of_sameAs {depth : Nat} {p : Pattern} {shared : List Slot} {first bound : Depths}
    (hfirst : first.entries = (shared.map (Slot.deeper depth)).map Slot.entry)
    (hbound : bound.entries = (Pattern.slots depth p).map Slot.entry)
    (hnf : first.names.Nodup) (hnb : bound.names.Nodup) (h : first.sameAs bound = true) :
    (Pattern.slots 0 p).Perm shared := by
  have hperm := (Table.sameAs_iff_perm hnf hnb).1 h
  rw [hfirst, hbound, List.map_perm_map_iff Slot.entry_injective, Pattern.slots_eq_map,
    List.map_perm_map_iff (Slot.deeper_injective depth)] at hperm
  exact hperm.symm

mutual

theorem PatternNode.addDepths_eq_ok : ∀ (node : PatternNode) {depth : Nat} {seen seen' : Depths},
    node.addDepths depth seen = .ok seen' → seen.names.Nodup →
    seen'.entries = seen.entries ++ (node.slots depth).map Slot.entry ∧ seen'.names.Nodup ∧
      node.WellNamed
  | .literal _, _, _, _, h, hseen => by
    cases h
    exact ⟨(List.append_nil _).symm, hseen, trivial⟩
  | .escape _, _, _, _, h, hseen => by
    cases h
    exact ⟨(List.append_nil _).symm, hseen, trivial⟩
  | .capture name _ _, _, _, _, h, hseen => by
    obtain ⟨hnew, rfl⟩ := Depths.add_eq_ok.1 h
    exact ⟨Table.entries_insert hnew, Table.nodup_insert hseen, trivial⟩
  | .repetition inner _ _, _, _, _, h, hseen => Pattern.addDepths_eq_ok inner h hseen
  | .choice [] _, _, _, _, h, hseen => by
    obtain ⟨hentries, hnodup⟩ := Depths.addAll_eq_ok h hseen
    exact ⟨hentries, hnodup, trivial⟩
  | .choice (variant :: variants) position, depth, _, _, h, hseen => by
    rw [PatternNode.addDepths, Pattern.choiceDepths] at h
    split at h
    · cases h
    · next bound hchoice =>
      split at hchoice
      · cases hchoice
      · next first hfirst =>
        obtain ⟨hentries, hnodup, hnamed⟩ :=
          Pattern.addDepths_eq_ok variant hfirst Table.nodup_empty
        have hshared : first.entries
            = ((Pattern.slots 0 variant).map (Slot.deeper depth)).map Slot.entry := by
          rw [← Pattern.slots_eq_map]
          exact hentries
        obtain ⟨rfl, hvariants⟩ :=
          Pattern.choiceDepths_eq_ok variants hchoice hshared hnodup
        obtain ⟨hadded, hnodup'⟩ := Depths.addAll_eq_ok h hseen
        refine ⟨?_, hnodup', ?_⟩
        · rw [hadded]
          exact congrArg _ hentries
        · rw [PatternNode.WellNamed, Pattern.VariantsWellNamed]
          exact ⟨hnamed, List.Perm.refl _, hvariants⟩
  | .lookahead inner, _, _, _, h, hseen => by
    rw [PatternNode.addDepths] at h
    split at h
    · cases h
    · cases h
      exact ⟨(List.append_nil _).symm, hseen, trivial⟩

/-- The check of a pattern adds its captures at the end, and accepts well-named patterns only. -/
theorem Pattern.addDepths_eq_ok : ∀ (p : Pattern) {depth : Nat} {seen seen' : Depths},
    Pattern.addDepths depth p seen = .ok seen' → seen.names.Nodup →
    seen'.entries = seen.entries ++ (Pattern.slots depth p).map Slot.entry ∧
      seen'.names.Nodup ∧ Pattern.WellNamed p
  | [], _, _, _, h, hseen => by
    cases h
    exact ⟨(List.append_nil _).symm, hseen, trivial⟩
  | node :: nodes, depth, seen, seen', h, hseen => by
    rw [Pattern.addDepths] at h
    split at h
    · cases h
    · next next hnode =>
      obtain ⟨hentries, hnodup, hnamed⟩ := PatternNode.addDepths_eq_ok node hnode hseen
      obtain ⟨hentries', hnodup', hnamed'⟩ := Pattern.addDepths_eq_ok nodes h hnodup
      have hall : seen'.entries
          = seen.entries ++ (Pattern.slots depth (node :: nodes)).map Slot.entry := by
        rw [hentries', hentries, Pattern.slots, List.map_append, List.append_assoc]
      refine ⟨hall, hnodup', ?_⟩
      rw [Pattern.WellNamed]
      refine ⟨hnamed, hnamed', ?_⟩
      rw [Table.names, hall, List.map_append, List.map_map] at hnodup'
      rw [← Pattern.map_name_slots depth]
      exact hnodup'.of_append_right

/-- All variants of a choice have the captures of the first one. -/
theorem Pattern.choiceDepths_eq_ok : ∀ (variants : List Pattern) {depth : Nat}
    {position : Position} {first : Depths} {bound : Option Depths} {shared : List Slot},
    Pattern.choiceDepths depth position variants (some first) = .ok bound →
    first.entries = (shared.map (Slot.deeper depth)).map Slot.entry → first.names.Nodup →
    bound = some first ∧ Pattern.VariantsWellNamed shared variants
  | [], _, _, _, _, _, h, _, _ => by
    cases h
    exact ⟨rfl, trivial⟩
  | variant :: variants, _, _, _, _, _, h, hfirst, hnf => by
    rw [Pattern.choiceDepths] at h
    split at h
    · cases h
    · next bound hbound =>
      obtain ⟨hentries, hnb, hnamed⟩ :=
        Pattern.addDepths_eq_ok variant hbound Table.nodup_empty
      simp only at h
      split at h
      · next hsame =>
        obtain ⟨heq, hvariants⟩ := Pattern.choiceDepths_eq_ok variants h hfirst hnf
        refine ⟨heq, ?_⟩
        rw [Pattern.VariantsWellNamed]
        exact ⟨hnamed, perm_slots_of_sameAs hfirst hentries hnf hnb hsame, hvariants⟩
      · cases h

end

/-- The depths of a pattern are those of its slots. -/
theorem Pattern.depths_eq_ok {p : Pattern} {declared : Depths} (h : p.depths = .ok declared) :
    declared.entries = (Pattern.slots 0 p).map Slot.entry ∧ p.WellNamed := by
  obtain ⟨hentries, -, hnamed⟩ := Pattern.addDepths_eq_ok p h Table.nodup_empty
  exact ⟨hentries, hnamed⟩

end TokenMacros
