import Mathlib.Data.List.Induction
import Mathlib.Data.List.Nodup
import Mathlib.Data.List.Perm.Basic
import TokenMacros.Table

/-!
# Tables with distinct names

A table whose names are distinct is its set of entries. Every operation keeps names
distinct.

    t.names.Nodup → (t.find? n = some v ↔ (n, v) ∈ t.entries)
                                                           (find?_eq_some_iff)
    u.names.Nodup → (t.merge u).find? n = (u.find? n).or (t.find? n)
                                                           (find?_merge)
    (t.merge u).merge u = t.merge u                        (merge_merge_self)
    t.sameAs u = true ↔ t.entries.Perm u.entries           (sameAs_iff_perm)
-/

namespace TokenMacros

namespace Table

variable {α : Type} {t u : Table α} {name : String} {value : α}

/-! ## Entries -/

theorem lookup_eq_none_iff {entries : List (String × α)} :
    lookup name entries = none ↔ name ∉ entries.map Prod.fst := by
  induction entries with
  | nil => simp [lookup]
  | cons e rest ih =>
    by_cases h : e.1 = name
    · simp [lookup, h]
    · rw [lookup, if_neg h, ih, List.map_cons, List.mem_cons, not_or]
      exact ⟨fun hrest => ⟨Ne.symm h, hrest⟩, fun hall => hall.2⟩

theorem find?_eq_none_iff : t.find? name = none ↔ name ∉ t.names := lookup_eq_none_iff

theorem mem_of_lookup {entries : List (String × α)} (h : lookup name entries = some value) :
    (name, value) ∈ entries := by
  induction entries with
  | nil => cases h
  | cons e rest ih =>
    obtain ⟨n, v⟩ := e
    rw [lookup] at h
    split at h
    · next hn =>
      cases h
      cases hn
      exact List.mem_cons_self
    · exact List.mem_cons_of_mem _ (ih h)

theorem lookup_of_mem {entries : List (String × α)} (hn : (entries.map Prod.fst).Nodup)
    (h : (name, value) ∈ entries) : lookup name entries = some value := by
  induction entries with
  | nil => cases h
  | cons e rest ih =>
    rw [List.map_cons, List.nodup_cons] at hn
    rw [lookup]
    rcases List.mem_cons.1 h with rfl | h
    · rw [if_pos rfl]
    · have hne : e.1 ≠ name := by
        rintro rfl
        exact hn.1 (List.mem_map.2 ⟨(e.1, value), h, rfl⟩)
      rw [if_neg hne]
      exact ih hn.2 h

theorem find?_eq_some_iff (ht : t.names.Nodup) :
    t.find? name = some value ↔ (name, value) ∈ t.entries :=
  ⟨mem_of_lookup, lookup_of_mem ht⟩

theorem nodup_empty : (∅ : Table α).names.Nodup := List.nodup_nil

/-! ## Inserting -/

theorem mem_put {entries : List (String × α)} {e : String × α} (h : e ∈ put name value entries) :
    e = (name, value) ∨ e ∈ entries := by
  induction entries with
  | nil => exact Or.inl (List.mem_singleton.1 h)
  | cons first rest ih =>
    rw [put] at h
    split at h
    · rcases List.mem_cons.1 h with rfl | h
      · exact Or.inl rfl
      · exact Or.inr (List.mem_cons_of_mem _ h)
    · rcases List.mem_cons.1 h with rfl | h
      · exact Or.inr List.mem_cons_self
      · exact (ih h).imp_right (List.mem_cons_of_mem _)

theorem put_of_lookup_eq_none {entries : List (String × α)} (h : lookup name entries = none) :
    put name value entries = entries ++ [(name, value)] := by
  induction entries with
  | nil => rfl
  | cons e rest ih =>
    rw [lookup] at h
    split at h
    · cases h
    · next hn => rw [put, if_neg hn, ih h, List.cons_append]

theorem map_fst_put_of_mem {entries : List (String × α)} (h : name ∈ entries.map Prod.fst) :
    (put name value entries).map Prod.fst = entries.map Prod.fst := by
  induction entries with
  | nil => cases h
  | cons e rest ih =>
    rw [put]
    split
    · next hn => simp [hn]
    · next hn =>
      rw [List.map_cons, List.mem_cons] at h
      rw [List.map_cons, List.map_cons, ih (h.resolve_left (Ne.symm hn))]

/-- A new name comes in at the end. -/
theorem entries_insert (h : t.find? name = none) :
    (t.insert name value).entries = t.entries ++ [(name, value)] :=
  put_of_lookup_eq_none h

theorem nodup_insert (ht : t.names.Nodup) : (t.insert name value).names.Nodup := by
  by_cases h : name ∈ t.names
  · have hnames : (t.insert name value).names = t.names := map_fst_put_of_mem h
    rwa [hnames]
  · have hnames : (t.insert name value).names = t.names ++ [name] := by
      rw [names, entries_insert (find?_eq_none_iff.2 h), List.map_append]
      rfl
    rw [hnames, List.nodup_append]
    refine ⟨ht, List.nodup_singleton name, ?_⟩
    rintro n hn _ hsingle rfl
    rw [List.mem_singleton.1 hsingle] at hn
    exact h hn

/-! ## Merging -/

theorem foldl_insert_nodup (entries : List (String × α)) (ht : t.names.Nodup) :
    (entries.foldl (fun t e => t.insert e.1 e.2) t).names.Nodup := by
  induction entries generalizing t with
  | nil => exact ht
  | cons e rest ih => exact ih (nodup_insert ht)

theorem nodup_merge (ht : t.names.Nodup) : (t.merge u).names.Nodup :=
  foldl_insert_nodup u.entries ht

theorem find?_foldl_insert {entries : List (String × α)} (hn : (entries.map Prod.fst).Nodup) :
    (entries.foldl (fun t e => t.insert e.1 e.2) t).find? name
      = (lookup name entries).or (t.find? name) := by
  induction entries generalizing t with
  | nil => rfl
  | cons e rest ih =>
    rw [List.map_cons, List.nodup_cons] at hn
    rw [List.foldl_cons, ih hn.2, find?_insert, lookup]
    by_cases h : e.1 = name
    · subst h
      rw [if_pos rfl, if_pos rfl, lookup_eq_none_iff.2 hn.1]
      rfl
    · rw [if_neg h, if_neg (Ne.symm h)]

theorem find?_merge (hu : u.names.Nodup) :
    (t.merge u).find? name = (u.find? name).or (t.find? name) :=
  find?_foldl_insert hu

/-! ### Merging twice -/

theorem put_put_self (v w : α) (entries : List (String × α)) :
    put name w (put name v entries) = put name w entries := by
  induction entries with
  | nil => simp [put]
  | cons e rest ih =>
    by_cases h : e.1 = name
    · simp [put, h]
    · simp [put, h, ih]

/-- Values for different names may come in in either order, if one of the names is there. -/
theorem put_comm {m n : String} (hne : m ≠ n) (v w : α) {entries : List (String × α)}
    (hm : m ∈ entries.map Prod.fst) :
    put m w (put n v entries) = put n v (put m w entries) := by
  induction entries with
  | nil => cases hm
  | cons e rest ih =>
    by_cases he : e.1 = m
    · have hen : ¬ e.1 = n := fun hen => hne (he.symm.trans hen)
      simp [put, he, hne]
    · have hrest : m ∈ rest.map Prod.fst := by
        rw [List.map_cons, List.mem_cons] at hm
        exact hm.resolve_left (Ne.symm he)
      by_cases hen : e.1 = n
      · simp [put, hen, Ne.symm hne]
      · simp [put, he, hen, ih hrest]

theorem mem_names_insert {other : String} (h : other ∈ t.names) :
    other ∈ (t.insert name value).names := by
  have hsome : t.find? other ≠ none := fun hnone => find?_eq_none_iff.1 hnone h
  by_contra hnot
  have hnone := find?_eq_none_iff.2 hnot
  rw [find?_insert] at hnone
  split at hnone
  · cases hnone
  · exact hsome hnone

theorem mem_names_insert_self : name ∈ (t.insert name value).names := by
  by_contra hnot
  have hnone := find?_eq_none_iff.2 hnot
  rw [find?_insert_self] at hnone
  cases hnone

theorem mem_names_foldl_insert {other : String} (entries : List (String × α))
    (h : other ∈ t.names ∨ other ∈ entries.map Prod.fst) :
    other ∈ (entries.foldl (fun t e => t.insert e.1 e.2) t).names := by
  induction entries generalizing t with
  | nil => exact h.resolve_right (List.not_mem_nil)
  | cons e rest ih =>
    refine ih ?_
    rcases h with h | h
    · exact .inl (mem_names_insert h)
    · rcases List.mem_cons.1 h with rfl | h
      · exact .inl mem_names_insert_self
      · exact .inr h

/-- A value that is replaced in the end leaves no trace, if the names between are there. -/
theorem insert_foldl_insert {entries : List (String × α)} (h : ∀ e ∈ entries, e.1 ∈ t.names)
    (v w : α) :
    (entries.foldl (fun t e => t.insert e.1 e.2) (t.insert name v)).insert name w =
      (entries.foldl (fun t e => t.insert e.1 e.2) t).insert name w := by
  induction entries generalizing t with
  | nil => exact congrArg Table.mk (put_put_self v w t.entries)
  | cons e rest ih =>
    rw [List.forall_mem_cons] at h
    rw [List.foldl_cons, List.foldl_cons]
    by_cases he : e.1 = name
    · have hput : (t.insert name v).insert e.1 e.2 = t.insert e.1 e.2 := by
        subst he
        exact congrArg Table.mk (put_put_self v e.2 t.entries)
      rw [hput]
    · have hput : (t.insert name v).insert e.1 e.2 = (t.insert e.1 e.2).insert name v :=
        congrArg Table.mk (put_comm he v e.2 h.1)
      rw [hput]
      exact ih fun e' he' => mem_names_insert (h.2 e' he')

/-- Entries that were merged already change nothing. -/
theorem merge_merge_self (t u : Table α) : (t.merge u).merge u = t.merge u := by
  obtain ⟨entries⟩ := u
  simp only [merge]
  induction entries using List.reverseRecOn with
  | nil => rfl
  | append_singleton entries e ih =>
    simp only [List.foldl_append, List.foldl_cons, List.foldl_nil]
    rw [insert_foldl_insert, ih]
    intro e' he'
    exact mem_names_foldl_insert entries (.inr (List.mem_map_of_mem he'))

/-! ## Comparing -/

/-- Tables of distinct names are the same if they have the same entries, in whatever order. -/
theorem sameAs_iff_perm [DecidableEq α] (ht : t.names.Nodup) (hu : u.names.Nodup) :
    t.sameAs u = true ↔ t.entries.Perm u.entries := by
  simp only [sameAs, Bool.and_eq_true, beq_iff_eq, List.all_eq_true]
  constructor
  · rintro ⟨hsize, hall⟩
    have hsub : t.entries ⊆ u.entries := fun e he => mem_of_lookup (hall e he)
    exact (List.subperm_of_subset ht.of_map hsub).perm_of_length_le (Nat.le_of_eq hsize.symm)
  · intro hperm
    exact ⟨hperm.length_eq, fun e he => lookup_of_mem hu (hperm.mem_iff.1 he)⟩

end Table

end TokenMacros
