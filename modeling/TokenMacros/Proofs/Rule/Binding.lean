import TokenMacros.Proofs.Rule.Slots

/-!
# What a pattern binds

Whatever variants match and however many rounds there are, a well-named pattern
binds its captures, all of them and nothing else, to values that repeat as deeply
as the captures stand:

    p.WellNamed → p.read ts = some r → r.captures.Binds (Pattern.slots 0 p)
                                                           (Pattern.read_binds)
-/

namespace TokenMacros

/-- Every branch of the value leads through `depth` levels of rounds. -/
inductive Captured.HasDepth : Captured → Nat → Prop
  | once {tokens : List Token} : HasDepth (.once tokens) 0
  | each {rounds : List Captured} {depth : Nat} :
      (∀ c ∈ rounds, c.HasDepth depth) → HasDepth (.each rounds) (depth + 1)

/-- The captures are those of the slots, with values of their depths. -/
structure Captures.Binds (captures : Captures) (slots : List Slot) : Prop where
  distinct : captures.names.Nodup
  value : ∀ s ∈ slots, ∃ c, captures.find? s.name = some c ∧ c.HasDepth s.depth
  other : ∀ name, name ∉ slots.map Slot.name → captures.find? name = none

namespace Captures

variable {captures captures' : Captures} {slots slots' : List Slot}

theorem binds_empty : Binds ∅ [] where
  distinct := Table.nodup_empty
  value := by simp
  other := by simp

theorem binds_once (name : String) (tokens : List Token) :
    Binds (Table.insert ∅ name (.once tokens)) [⟨name, 0⟩] where
  distinct := Table.nodup_insert Table.nodup_empty
  value := by
    intro s hs
    rw [List.mem_singleton.1 hs]
    exact ⟨.once tokens, Table.find?_insert_self _ _ _, .once⟩
  other := by
    intro other hother
    rw [List.map_singleton, List.mem_singleton] at hother
    rw [Table.find?_insert_of_ne _ hother, Table.find?_empty]

/-- The order of the slots does not matter. -/
theorem Binds.perm (h : captures.Binds slots) (hperm : slots.Perm slots') :
    captures.Binds slots' where
  distinct := h.distinct
  value := fun s hs => h.value s (hperm.mem_iff.2 hs)
  other := fun name hname => h.other name fun hmem =>
    hname ((hperm.map Slot.name).mem_iff.1 hmem)

/-- What is bound by the first of two parts with names of their own keeps its value. -/
theorem Binds.find?_merge_left (h' : captures'.Binds slots')
    (hnodup : ((slots ++ slots').map Slot.name).Nodup) {s : Slot} (hs : s ∈ slots) :
    (Table.merge captures captures').find? s.name = captures.find? s.name := by
  have hnot : s.name ∉ slots'.map Slot.name := by
    intro hmem
    rw [List.map_append] at hnodup
    exact List.disjoint_of_nodup_append hnodup (List.mem_map_of_mem hs) hmem
  rw [Table.find?_merge h'.distinct, h'.other _ hnot]
  rfl

theorem Binds.find?_merge_right (h' : captures'.Binds slots') {s : Slot} (hs : s ∈ slots') :
    (Table.merge captures captures').find? s.name = captures'.find? s.name := by
  obtain ⟨c, hc, -⟩ := h'.value s hs
  rw [Table.find?_merge h'.distinct, hc]
  rfl

theorem Binds.merge (h : captures.Binds slots) (h' : captures'.Binds slots')
    (hnodup : ((slots ++ slots').map Slot.name).Nodup) :
    Binds (Table.merge captures captures') (slots ++ slots') where
  distinct := Table.nodup_merge h.distinct
  value := by
    intro s hs
    rcases List.mem_append.1 hs with hs | hs
    · rw [h'.find?_merge_left hnodup hs]
      exact h.value s hs
    · rw [h'.find?_merge_right hs]
      exact h'.value s hs
  other := by
    intro name hname
    rw [List.map_append, List.mem_append, not_or] at hname
    rw [Table.find?_merge h'.distinct, h'.other _ hname.2, h.other _ hname.1]
    rfl

end Captures

/-! ## Gathering -/

section gather

variable {slots : List Slot} {items : List Captures} {out : Captures} {name : String}

theorem find?_gather_of_not_mem (h : name ∉ slots.map Slot.name) :
    (gather slots items out).find? name = out.find? name := by
  induction slots generalizing items out with
  | nil => rfl
  | cons s slots ih =>
    rw [List.map_cons, List.mem_cons, not_or] at h
    rw [gather, ih h.2, Table.find?_insert_of_ne _ h.1]

/-- A slot whose name is its own has its values in the rounds. -/
theorem find?_gather (s : Slot) (hnodup : (slots.map Slot.name).Nodup) (hs : s ∈ slots) :
    (gather slots items out).find? s.name
      = some (.each (items.map fun c => (c.find? s.name).getD (.unreached s.depth))) := by
  induction slots generalizing items out with
  | nil => cases hs
  | cons first slots ih =>
    rw [List.map_cons, List.nodup_cons] at hnodup
    rw [gather]
    rcases List.mem_cons.1 hs with rfl | hs
    · rw [find?_gather_of_not_mem hnodup.1, Table.find?_insert_self]
    · have hne : s.name ≠ first.name := by
        intro h
        exact hnodup.1 (h ▸ List.mem_map_of_mem hs)
      rw [ih hnodup.2 hs, List.map_map]
      simp only [Function.comp_def, Table.find?_erase_of_ne _ hne]

theorem nodup_gather (h : out.names.Nodup) : (gather slots items out).names.Nodup := by
  induction slots generalizing items out with
  | nil => exact h
  | cons s slots ih => exact ih (Table.nodup_insert h)

/-- A repetition binds the captures inside it one level deeper. -/
theorem gather_binds (hnodup : (slots.map Slot.name).Nodup) (hitems : ∀ c ∈ items, c.Binds slots) :
    (gather slots items ∅).Binds (slots.map (Slot.deeper 1)) where
  distinct := nodup_gather Table.nodup_empty
  value := by
    intro s hs
    obtain ⟨inner, hinner, rfl⟩ := List.mem_map.1 hs
    refine ⟨_, find?_gather inner hnodup hinner, .each fun x hx => ?_⟩
    obtain ⟨c, hc, rfl⟩ := List.mem_map.1 hx
    obtain ⟨value, hvalue, hdepth⟩ := (hitems c hc).value inner hinner
    rwa [hvalue]
  other := by
    intro name hname
    rw [List.map_map] at hname
    rw [find?_gather_of_not_mem hname, Table.find?_empty]

end gather

/-! ## Reading -/

/-- The captures of a round are those of some reading. -/
theorem mem_items_readRounds {item : Reader} {separator due : Option Token} {most : Nat}
    {ts : List Token} {c : Captures} (h : c ∈ (readRounds item separator most due ts).items) :
    ∃ us r, item us = some r ∧ r.captures = c := by
  induction most generalizing due ts with
  | zero => cases h
  | succ most ih =>
    rw [readRounds] at h
    split at h
    · cases h
    · split at h
      · cases h
      · next r hr =>
        split at h
        · exact ⟨_, r, hr, (List.mem_singleton.1 h).symm⟩
        · rcases List.mem_cons.1 h with rfl | h
          · exact ⟨_, r, hr, rfl⟩
          · exact ih h

mutual

theorem PatternNode.read_binds : ∀ (node : PatternNode) {ts : List Token} {r : Reading},
    node.WellNamed → node.read ts = some r → r.captures.Binds (node.slots 0)
  | .literal _, ts, r, _, h => by
    obtain ⟨t, rest, -, -, rfl⟩ := read_literal_eq_some.1 h
    exact Captures.binds_empty
  | .escape _, ts, r, _, h => by
    obtain ⟨t, rest, -, -, rfl⟩ := read_escape_eq_some.1 h
    exact Captures.binds_empty
  | .capture name _ _, ts, r, _, h => by
    obtain ⟨taken, rest, -, rfl⟩ := read_capture_eq_some.1 h
    exact Captures.binds_once name taken
  | .repetition inner separator q, ts, r, hnamed, h => by
    rw [PatternNode.WellNamed] at hnamed
    rw [PatternNode.read] at h
    obtain ⟨-, rfl⟩ := readRepetition_eq_some.1 h
    have hslots : PatternNode.slots 0 (.repetition inner separator q)
        = (Pattern.slots 0 inner).map (Slot.deeper 1) := by
      rw [PatternNode.slots, Pattern.slots_eq_map]
    rw [hslots]
    refine gather_binds hnamed.nodup fun c hc => ?_
    obtain ⟨us, found, hfound, rfl⟩ := mem_items_readRounds hc
    exact Pattern.read_binds inner hnamed hfound
  | .choice variants _, ts, r, hnamed, h => by
    rw [PatternNode.WellNamed] at hnamed
    rw [PatternNode.read] at h
    exact Pattern.readFirst_binds variants hnamed h
  | .lookahead inner, ts, r, _, h => by
    obtain ⟨-, rfl⟩ := read_lookahead_eq_some.1 h
    exact Captures.binds_empty

/-- A well-named pattern binds its captures. -/
theorem Pattern.read_binds : ∀ (p : Pattern) {ts : List Token} {r : Reading},
    Pattern.WellNamed p → Pattern.read p ts = some r → r.captures.Binds (Pattern.slots 0 p)
  | [], ts, r, _, h => by
    cases h
    exact Captures.binds_empty
  | node :: nodes, ts, r, hnamed, h => by
    rw [Pattern.WellNamed] at hnamed
    obtain ⟨hnode, hnodes, hnodup⟩ := hnamed
    obtain ⟨first, second, hfirst, hsecond, rfl⟩ := Pattern.read_cons_eq_some.1 h
    exact (PatternNode.read_binds node hnode hfirst).merge
      (Pattern.read_binds nodes hnodes hsecond) hnodup

theorem Pattern.readFirst_binds : ∀ (variants : List Pattern) {shared : List Slot}
    {ts : List Token} {r : Reading}, Pattern.VariantsWellNamed shared variants →
    Pattern.readFirst variants ts = some r → r.captures.Binds shared
  | [], _, _, _, _, h => by cases h
  | variant :: variants, _, _, _, hnamed, h => by
    rw [Pattern.VariantsWellNamed] at hnamed
    obtain ⟨hvariant, hperm, hvariants⟩ := hnamed
    rcases Pattern.readFirst_cons_eq_some.1 h with hfound | ⟨-, hrest⟩
    · exact (Pattern.read_binds variant hvariant hfound).perm hperm
    · exact Pattern.readFirst_binds variants hvariants hrest

end

end TokenMacros
