/-!
# Splitting a text

    join sep (splitOn sep cs) = cs                         (join_splitOn)
    splitOn sep (join sep parts) = parts, where no part holds the separator
                                                           (splitOn_join)
-/

namespace TokenMacros.Text

/-- The parts of a text between the separators, empty parts too. -/
def splitOn (sep : Char) : List Char → List (List Char)
  | [] => [[]]
  | c :: cs =>
    if c = sep then [] :: splitOn sep cs
    else
      match splitOn sep cs with
      | [] => [[c]]
      | part :: parts => (c :: part) :: parts

/-- The parts with a separator between two of them. -/
def join (sep : Char) : List (List Char) → List Char
  | [] => []
  | [part] => part
  | part :: next :: parts => part ++ sep :: join sep (next :: parts)

theorem splitOn_ne_nil (sep : Char) (cs : List Char) : splitOn sep cs ≠ [] := by
  cases cs with
  | nil => simp [splitOn]
  | cons c cs =>
    unfold splitOn
    split
    · simp
    · split <;> simp

theorem join_splitOn (sep : Char) (cs : List Char) : join sep (splitOn sep cs) = cs := by
  induction cs with
  | nil => rfl
  | cons c cs ih =>
    unfold splitOn
    have hne := splitOn_ne_nil sep cs
    split
    · rename_i hc
      cases hs : splitOn sep cs with
      | nil => exact absurd hs hne
      | cons part parts =>
        rw [hs] at ih
        simp [join, ih, hc]
    · cases hs : splitOn sep cs with
      | nil => exact absurd hs hne
      | cons part parts =>
        rw [hs] at ih
        cases parts with
        | nil => simpa [join] using ih
        | cons next parts => simpa [join] using ih

theorem splitOn_of_not_mem {sep : Char} {part : List Char} (h : sep ∉ part) :
    splitOn sep part = [part] := by
  induction part with
  | nil => rfl
  | cons c cs ih =>
    rw [List.mem_cons, not_or] at h
    rw [splitOn, if_neg (Ne.symm h.1), ih h.2]

/-- The first separator ends the first part. -/
theorem splitOn_append {sep : Char} {part : List Char} (h : sep ∉ part) (rest : List Char) :
    splitOn sep (part ++ sep :: rest) = part :: splitOn sep rest := by
  induction part with
  | nil => rw [List.nil_append, splitOn, if_pos rfl]
  | cons c cs ih =>
    rw [List.mem_cons, not_or] at h
    rw [List.cons_append, splitOn, if_neg (Ne.symm h.1), ih h.2]

theorem splitOn_join {sep : Char} {parts : List (List Char)} (hne : parts ≠ [])
    (h : ∀ part ∈ parts, sep ∉ part) : splitOn sep (join sep parts) = parts := by
  induction parts with
  | nil => exact absurd rfl hne
  | cons part parts ih =>
    rw [List.forall_mem_cons] at h
    cases parts with
    | nil => exact splitOn_of_not_mem h.1
    | cons next parts => rw [join, splitOn_append h.1, ih (List.cons_ne_nil next parts) h.2]

end TokenMacros.Text
