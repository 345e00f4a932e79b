/-!
# Tables: finite maps from names

A table keeps its entries in the order in which their names first came in; a
second value for a name takes the place of the first.

    (t.insert n v).find? n = some v                        (find?_insert_self)
    m ≠ n → (t.insert n v).find? m = t.find? m             (find?_insert_of_ne)
    (t.erase n).find? n = none                             (find?_erase_self)
    m ≠ n → (t.erase n).find? m = t.find? m                (find?_erase_of_ne)
-/

namespace TokenMacros

/-- A finite map from names, as a list of entries. -/
structure Table (α : Type) where
  entries : List (String × α) := []

namespace Table

variable {α : Type}

instance : EmptyCollection (Table α) := ⟨⟨[]⟩⟩

instance : Inhabited (Table α) := ⟨∅⟩

/-! ## Operations -/

/-- The value of the first entry of that name. -/
def lookup (name : String) : List (String × α) → Option α
  | [] => none
  | (n, v) :: rest => if n = name then some v else lookup name rest

/-- The entries with `value` in the place of the first entry of that name, or at the end. -/
def put (name : String) (value : α) : List (String × α) → List (String × α)
  | [] => [(name, value)]
  | (n, v) :: rest => if n = name then (name, value) :: rest else (n, v) :: put name value rest

/-- The value bound to a name. -/
def find? (t : Table α) (name : String) : Option α := lookup name t.entries

/-- Is the name bound? -/
def contains (t : Table α) (name : String) : Bool := (t.find? name).isSome

/-- The table with the name bound to the value. -/
def insert (t : Table α) (name : String) (value : α) : Table α := ⟨put name value t.entries⟩

/-- The table without the name. -/
def erase (t : Table α) (name : String) : Table α := ⟨t.entries.filter fun e => e.1 ≠ name⟩

/-- Both tables; where a name is in both, the entry of `u` counts. -/
def merge (t u : Table α) : Table α := u.entries.foldl (fun t e => t.insert e.1 e.2) t

/-- Number of entries. -/
def size (t : Table α) : Nat := t.entries.length

/-- The names, in the order of their entries. -/
def names (t : Table α) : List String := t.entries.map Prod.fst

/-- Every entry of `t` is found in `u`, and the two are of one size. -/
def sameAs [DecidableEq α] (t u : Table α) : Bool :=
  t.size == u.size && t.entries.all fun e => u.find? e.1 == some e.2

/-- The table of a list of entries; a later entry of a name replaces an earlier one. -/
def ofList (entries : List (String × α)) : Table α := merge ∅ ⟨entries⟩

/-! ## Lemmas -/

@[simp] theorem find?_empty (name : String) : (∅ : Table α).find? name = none := rfl

theorem lookup_put_self (name : String) (value : α) (entries : List (String × α)) :
    lookup name (put name value entries) = some value := by
  induction entries with
  | nil => simp [put, lookup]
  | cons e rest ih =>
    by_cases h : e.1 = name
    · simp [put, lookup, h]
    · simp [put, lookup, h, ih]

theorem lookup_put_of_ne {name other : String} (h : other ≠ name) (value : α)
    (entries : List (String × α)) :
    lookup other (put name value entries) = lookup other entries := by
  induction entries with
  | nil => simp [put, lookup, Ne.symm h]
  | cons e rest ih =>
    by_cases hn : e.1 = name
    · have ho : ¬ e.1 = other := fun ho => h (ho.symm.trans hn)
      rw [put, if_pos hn, lookup, lookup, if_neg (Ne.symm h), if_neg ho]
    · rw [put, if_neg hn, lookup, lookup, ih]

@[simp] theorem find?_insert_self (t : Table α) (name : String) (value : α) :
    (t.insert name value).find? name = some value :=
  lookup_put_self name value t.entries

theorem find?_insert_of_ne {name other : String} (t : Table α) (h : other ≠ name) (value : α) :
    (t.insert name value).find? other = t.find? other :=
  lookup_put_of_ne h value t.entries

theorem find?_insert (t : Table α) (name other : String) (value : α) :
    (t.insert name value).find? other = if other = name then some value else t.find? other := by
  by_cases h : other = name
  · simp [h]
  · simp [h, find?_insert_of_ne]

theorem lookup_filter_self (name : String) (entries : List (String × α)) :
    lookup name (entries.filter fun e => e.1 ≠ name) = none := by
  induction entries with
  | nil => rfl
  | cons e rest ih =>
    by_cases h : e.1 = name
    · simpa [h] using ih
    · simpa [h, lookup] using ih

theorem lookup_filter_of_ne {name other : String} (h : other ≠ name)
    (entries : List (String × α)) :
    lookup other (entries.filter fun e => e.1 ≠ name) = lookup other entries := by
  induction entries with
  | nil => rfl
  | cons e rest ih =>
    by_cases hn : e.1 = name
    · have ho : ¬ e.1 = other := fun ho => h (ho.symm.trans hn)
      rw [List.filter_cons_of_neg (by simp [hn]), ih, lookup, if_neg ho]
    · rw [List.filter_cons_of_pos (by simp [hn]), lookup, lookup, ih]

@[simp] theorem find?_erase_self (t : Table α) (name : String) :
    (t.erase name).find? name = none :=
  lookup_filter_self name t.entries

theorem find?_erase_of_ne {name other : String} (t : Table α) (h : other ≠ name) :
    (t.erase name).find? other = t.find? other :=
  lookup_filter_of_ne h t.entries

end Table

end TokenMacros
