import Mathlib.Data.List.TakeWhile
import Mathlib.Data.Set.Function
import TokenMacros.Import.ModulePath

/-!
# Modules and files

A module whose parts are plain lies where one expects it, below any root:

    modulePath root extension (join '.' parts) =
      directory root ++ join '/' parts ++ suffix extension (modulePath_join)

What is pushed onto the root is kept, since a plain part neither starts a path by itself
nor loses anything when an extension is put behind it. So two modules never share a file
(`modulePath_injective`).
-/

namespace TokenMacros.Import

/-- A part of a module's name that is a component of a path as it stands. -/
structure PlainPart (part : List Char) : Prop where
  ne_nil : part ≠ []
  no_dot : '.' ∉ part
  no_slash : '/' ∉ part

instance (part : List Char) : Decidable (PlainPart part) :=
  decidable_of_iff (part ≠ [] ∧ '.' ∉ part ∧ '/' ∉ part)
    ⟨fun h => ⟨h.1, h.2.1, h.2.2⟩, fun h => ⟨h.ne_nil, h.no_dot, h.no_slash⟩⟩

/-- The names of modules that are plain parts with dots between them. -/
def dottedNames : Set (List Char) :=
  {module | ∃ parts, parts ≠ [] ∧ (∀ part ∈ parts, PlainPart part) ∧ module = Text.join '.' parts}

/-- Does a component start behind this? -/
def StartsPart (front : List Char) : Prop := front = [] ∨ front.getLast? = some '/'

instance (front : List Char) : Decidable (StartsPart front) :=
  inferInstanceAs (Decidable (_ ∨ _))

/-- What stands before the components that are pushed onto a path. -/
def directory (path : List Char) : List Char := if StartsPart path then path else path ++ ['/']

/-- What stands behind the last component of a path with an extension. -/
def suffix (extension : List Char) : List Char := if extension = [] then [] else '.' :: extension

variable {part path front root : List Char} {parts : List (List Char)}

/-! ## Pushing parts -/

theorem startsPart_directory (path : List Char) : StartsPart (directory path) := by
  unfold directory
  split
  · assumption
  · exact .inr (by simp)

theorem PlainPart.head_ne (h : PlainPart part) : part.head? ≠ some '/' :=
  fun hhead => h.no_slash (List.mem_of_mem_head? hhead)

theorem pushPart_eq (h : PlainPart part) (path : List Char) :
    pushPart path part = directory path ++ part := by
  unfold pushPart directory
  rw [if_neg h.head_ne]
  by_cases hpath : StartsPart path
  · rw [if_pos hpath, if_pos (show path = [] ∨ _ from hpath)]
  · rw [if_neg hpath, if_neg (show ¬ (path = [] ∨ _) from hpath), List.append_assoc,
      List.singleton_append]

/-- Behind a plain part a slash is due. -/
theorem directory_append (h : PlainPart part) (front : List Char) :
    directory (front ++ part) = front ++ part ++ ['/'] := by
  refine if_neg ?_
  rintro (hnil | hlast)
  · exact h.ne_nil (List.append_eq_nil_iff.1 hnil).2
  · rw [List.getLast?_append, List.getLast?_eq_some_getLast h.ne_nil, Option.some_or,
      ← List.getLast?_eq_some_getLast h.ne_nil] at hlast
    exact h.no_slash (List.mem_of_getLast? hlast)

theorem foldl_pushPart (hne : parts ≠ []) (hparts : ∀ part ∈ parts, PlainPart part)
    (root : List Char) : parts.foldl pushPart root = directory root ++ Text.join '/' parts := by
  induction parts generalizing root with
  | nil => exact absurd rfl hne
  | cons part parts ih =>
    rw [List.forall_mem_cons] at hparts
    rw [List.foldl_cons, pushPart_eq hparts.1]
    cases parts with
    | nil => rfl
    | cons next parts =>
      rw [ih (List.cons_ne_nil next parts) hparts.2, directory_append hparts.1, Text.join]
      simp only [List.append_assoc, List.singleton_append]

/-! ## The extension of a plain component -/

/-- The components but for the last, and a slash behind them. -/
theorem exists_join_eq (hne : parts ≠ []) : ∃ front last, last ∈ parts ∧ StartsPart front ∧
    Text.join '/' parts = front ++ last := by
  induction parts with
  | nil => exact absurd rfl hne
  | cons part parts ih =>
    cases parts with
    | nil => exact ⟨[], part, List.mem_cons_self, .inl rfl, rfl⟩
    | cons next parts =>
      obtain ⟨front, last, hmem, hfront, hjoin⟩ := ih (List.cons_ne_nil next parts)
      refine ⟨part ++ '/' :: front, last, List.mem_cons_of_mem part hmem, .inr ?_, ?_⟩
      · rcases hfront with rfl | hlast
        · simp
        · simp [List.getLast?_append, List.getLast?_cons, hlast]
      · rw [Text.join, hjoin, List.append_assoc, List.cons_append]

theorem StartsPart.append {front' : List Char} (h : StartsPart front) (h' : StartsPart front') :
    StartsPart (front ++ front') := by
  rcases h' with rfl | hlast
  · rwa [List.append_nil]
  · exact .inr (by simp [List.getLast?_append, hlast])

theorem StartsPart.drop (h : StartsPart front) (n : Nat) : StartsPart (front.drop n) := by
  by_cases hn : front.length ≤ n
  · exact .inl (List.drop_eq_nil_of_le hn)
  · rcases h with rfl | hlast
    · exact .inl List.drop_nil
    · exact .inr (by rw [List.getLast?_drop, if_neg hn, hlast])

/-- The anchor of a path lies before its last component, if that is plain. -/
theorem anchorLength_le (hfront : StartsPart front) (h : PlainPart part) :
    anchorLength (front ++ part) ≤ front.length := by
  obtain ⟨c, cs, rfl⟩ := List.exists_cons_of_ne_nil h.ne_nil
  have hdot : c ≠ '.' := fun hc => h.no_dot (hc ▸ List.mem_cons_self)
  have hslash : c ≠ '/' := fun hc => h.no_slash (hc ▸ List.mem_cons_self)
  cases front with
  | nil => simp [anchorLength, hdot, hslash]
  | cons d front =>
    have hle : ∀ path, anchorLength path ≤ 1 := by
      intro path
      unfold anchorLength
      split <;> simp
    exact (hle _).trans (by simp)

/-- Where a plain component ends a path there is nothing idle behind it. -/
theorem dropIdleParts_of_plain (h : PlainPart part) (behind : List Char) :
    dropIdleParts (part.reverse ++ behind) = part.reverse ++ behind := by
  obtain ⟨c, cs, hrev⟩ := List.exists_cons_of_ne_nil (List.reverse_ne_nil_iff.2 h.ne_nil)
  have hmem : c ∈ part := List.mem_reverse.1 (hrev ▸ List.mem_cons_self)
  have hdot : c ≠ '.' := fun hc => h.no_dot (hc ▸ hmem)
  have hslash : c ≠ '/' := fun hc => h.no_slash (hc ▸ hmem)
  rw [hrev, List.cons_append]
  unfold dropIdleParts
  split <;> simp_all

theorem takeWhile_component (hfront : StartsPart front) (h : PlainPart part) :
    (part.reverse ++ front.reverse).takeWhile (· ≠ '/') = part.reverse := by
  have hall : ∀ c ∈ part.reverse, decide (c ≠ '/') = true := fun c hc =>
    decide_eq_true fun hslash => h.no_slash (hslash ▸ List.mem_reverse.1 hc)
  rw [List.takeWhile_append_of_pos hall]
  rcases hfront with rfl | hlast
  · rw [List.reverse_nil, List.takeWhile_nil, List.append_nil]
  · obtain ⟨rest, rfl⟩ := List.getLast?_eq_some_iff.1 hlast
    simp

theorem suffixLength_of_no_dot {component : List Char} (h : '.' ∉ component) :
    suffixLength component = 0 := by
  have hall : component.takeWhile (· ≠ '.') = component :=
    List.takeWhile_eq_self_iff.2 fun c hc => decide_eq_true fun hdot => h (hdot ▸ hc)
  rw [suffixLength, hall]
  exact if_neg (Nat.not_lt.2 (Nat.le_succ _))

/-- An extension is put behind a plain component, and nothing is cut off. -/
theorem replaceExtension_append (hfront : StartsPart front) (h : PlainPart part)
    (extension : List Char) :
    replaceExtension (front ++ part) extension = front ++ part ++ suffix extension := by
  have hle := anchorLength_le hfront h
  have hreverse : ((front ++ part).drop (anchorLength (front ++ part))).reverse =
      part.reverse ++ (front.drop (anchorLength (front ++ part))).reverse := by
    rw [List.drop_append_of_le_length hle, List.reverse_append]
  have hcomponent := takeWhile_component (hfront.drop (anchorLength (front ++ part))) h
  have hnil : ¬ (part.reverse = [] ∨ part.reverse = ['.', '.']) := by
    rintro (hnil | hdots)
    · exact h.ne_nil (List.reverse_eq_nil_iff.1 hnil)
    · exact h.no_dot (List.mem_reverse.1 (hdots ▸ List.mem_cons_self))
  simp only [replaceExtension, hreverse, dropIdleParts_of_plain h, hcomponent, if_neg hnil]
  rw [suffixLength_of_no_dot (mt List.mem_reverse.1 h.no_dot), List.drop_zero, ← hreverse,
    List.reverse_reverse, List.take_append_drop]
  rfl

/-! ## Paths of modules -/

theorem modulePath_join (hne : parts ≠ []) (hparts : ∀ part ∈ parts, PlainPart part)
    (root extension : List Char) : modulePath root extension (Text.join '.' parts) =
      directory root ++ Text.join '/' parts ++ suffix extension := by
  obtain ⟨front, last, hmem, hfront, hjoin⟩ := exists_join_eq hne
  rw [modulePath, Text.splitOn_join hne fun part hpart => (hparts part hpart).no_dot,
    foldl_pushPart hne hparts, hjoin, ← List.append_assoc,
    replaceExtension_append ((startsPart_directory root).append hfront) (hparts last hmem)]

/-- The path of a module is the root, its parts with slashes between them, and the extension; below
one root and with one extension no two modules have the same path. -/
theorem modulePath_injective (root extension : List Char) :
    (∀ parts, parts ≠ [] → (∀ part ∈ parts, PlainPart part) →
      modulePath root extension (Text.join '.' parts) =
        directory root ++ Text.join '/' parts ++ suffix extension) ∧
    Set.InjOn (modulePath root extension) dottedNames := by
  refine ⟨fun parts hne hparts => modulePath_join hne hparts root extension, ?_⟩
  rintro _ ⟨parts, hne, hparts, rfl⟩ _ ⟨parts', hne', hparts', rfl⟩ heq
  rw [modulePath_join hne hparts, modulePath_join hne' hparts', List.append_left_inj,
    List.append_right_inj] at heq
  -- parts without slashes are found again in the path
  rw [← Text.splitOn_join hne fun part hpart => (hparts part hpart).no_slash, heq,
    Text.splitOn_join hne' fun part hpart => (hparts' part hpart).no_slash]

/-! ## Modules below a dotted root -/

theorem modulePath_injective_dottedRoot :
    "a.b".toList ∈ dottedNames ∧ "a.c".toList ∈ dottedNames ∧
      modulePath "../lib.d".toList "py".toList "a.b".toList = "../lib.d/a/b.py".toList ∧
      modulePath "../lib.d".toList "py".toList "a.b".toList ≠
        modulePath "../lib.d".toList "py".toList "a.c".toList := by
  have hb : "a.b".toList ∈ dottedNames := ⟨[['a'], ['b']], by decide, by decide, by decide⟩
  have hc : "a.c".toList ∈ dottedNames := ⟨[['a'], ['c']], by decide, by decide, by decide⟩
  obtain ⟨hpath, hinj⟩ := modulePath_injective "../lib.d".toList "py".toList
  refine ⟨hb, hc, ?_, fun heq => absurd (hinj hb hc heq) (by decide)⟩
  exact (hpath [['a'], ['b']] (by decide) (by decide)).trans (by decide)

end TokenMacros.Import
