import Mathlib.Tactic.SplitIfs
import TokenMacros.Proofs.Token.Balance

/-!
# Cutting trees off

What the readers of trees cut off is determined by the grammar of balanced streams,
whatever stands behind it:

    splitTree ts = .ok (tree, rest) ↔ TokenTree tree ∧ tree ++ rest = ts
                                                           (splitTree_eq_ok_iff)
    Balanced ts ↔ ts is the trees of a list, one after the other
                                                           (balanced_iff_flatten)
    trees.flatten = trees'.flatten → trees = trees'        (eq_of_flatten_eq)
    Row n ts ↔ ts is n trees, one after the other          (row_zero_iff, row_succ_iff)
    splitGroup text ts = some (body, rest) ↔ ts is an opener of that text, a balanced
      body, its closer and rest                            (splitGroup_eq_some_iff)
-/

namespace TokenMacros

/-- One plain token, or an opener, balanced tokens and the closer of the same category. -/
inductive TokenTree : List Token → Prop
  | leaf {t : Token} : t.role = .plain → TokenTree [t]
  | group {opener closer : Token} {d : Delimiter} {inner : List Token} :
      opener.role = .opens d → closer.role = .closes d → Balanced inner →
      TokenTree (opener :: inner ++ [closer])

variable {ts tree inner body rest : List Token} {opener closer : Token} {d : Delimiter}

/-! ## Trees -/

theorem except_map_map {α β γ : Type} (f : α → β) (g : β → γ) (x : Except Fault α) :
    (x.map f).map g = x.map fun a => g (f a) := by
  cases x <;> rfl

theorem splitClosing_plain {t : Token} (ht : t.role = .plain) (opener : Token) (top : Delimiter)
    (below : List Delimiter) (ts : List Token) : splitClosing opener top below (t :: ts) =
      (splitClosing opener top below ts).map (consFirst t) := by
  simp only [splitClosing, ht]

theorem splitClosing_opens {t : Token} (ht : t.role = .opens d) (opener : Token) (top : Delimiter)
    (below : List Delimiter) (ts : List Token) : splitClosing opener top below (t :: ts) =
      (splitClosing opener d (top :: below) ts).map (consFirst t) := by
  simp only [splitClosing, ht]

theorem splitClosing_closes_last {t : Token} (ht : t.role = .closes d) (opener : Token)
    (ts : List Token) : splitClosing opener d [] (t :: ts) = .ok ([t], ts) := by
  simp only [splitClosing, ht, if_true]

theorem splitClosing_closes {t : Token} (ht : t.role = .closes d) (opener : Token)
    (next : Delimiter) (below : List Delimiter) (ts : List Token) :
    splitClosing opener d (next :: below) (t :: ts) =
      (splitClosing opener next below ts).map (consFirst t) := by
  simp only [splitClosing, ht, if_true]

/-- The search for a closer passes over balanced tokens. -/
theorem splitClosing_balanced (hts : Balanced ts) (opener : Token) (top : Delimiter)
    (below : List Delimiter) (rest : List Token) :
    splitClosing opener top below (ts ++ rest) =
      (splitClosing opener top below rest).map fun p => (ts ++ p.1, p.2) := by
  induction hts generalizing top below rest with
  | nil => cases h : splitClosing opener top below rest <;> simp [h, Except.map]
  | @plain t ts ht _ ih =>
    rw [List.cons_append, splitClosing_plain ht, ih, except_map_map]
    rfl
  | @tree first last d inner ts ho hc _ _ ihInner ih =>
    rw [List.append_assoc, List.cons_append, splitClosing_opens ho, ihInner, List.cons_append,
      splitClosing_closes hc, ih]
    simp only [except_map_map, consFirst, List.append_assoc, List.cons_append]

theorem splitTree_nil : splitTree [] = .error ⟨.imbalanced .noTree, {}⟩ := rfl

/-- A tree is cut off as it is. -/
theorem splitTree_of_tokenTree (h : TokenTree tree) (rest : List Token) :
    splitTree (tree ++ rest) = .ok (tree, rest) := by
  cases h with
  | leaf ht =>
    rw [List.singleton_append, splitTree]
    simp only [ht]
  | @group opener closer d inner ho hc hinner =>
    rw [List.append_assoc, List.cons_append, splitTree]
    simp only [ho]
    rw [splitClosing_balanced hinner, List.singleton_append, splitClosing_closes_last hc]
    rfl

theorem tokenTree_of_splitTree (h : splitTree ts = .ok (tree, rest)) : TokenTree tree := by
  cases ts with
  | nil => cases h
  | cons t ts =>
    rw [splitTree] at h
    cases hrole : t.role with
    | plain =>
      simp only [hrole] at h
      cases h
      exact .leaf hrole
    | closes d =>
      simp only [hrole] at h
      cases h
    | opens d =>
      simp only [hrole] at h
      obtain ⟨tail, hs, rfl⟩ := map_consFirst_eq_ok.1 h
      -- the tokens up to the closer close `d`, and the search ends with the first that does
      obtain ⟨inner, closer, more, rfl, hinner, hc, -⟩ :=
        closes_of_openAfter (splitClosing_openAfter hs [])
      have happend := splitClosing_append hs
      rw [← happend, List.append_assoc, List.cons_append, splitClosing_balanced hinner,
        splitClosing_closes_last hc] at hs
      simp only [Except.map, Except.ok.injEq, Prod.mk.injEq] at hs
      rw [← hs.1]
      exact .group hrole hc hinner

/-- The first tree of a stream is the only tree that the stream starts with. -/
theorem splitTree_eq_ok_iff :
    splitTree ts = .ok (tree, rest) ↔ TokenTree tree ∧ tree ++ rest = ts := by
  constructor
  · exact fun h => ⟨tokenTree_of_splitTree h, splitTree_append h⟩
  · rintro ⟨htree, rfl⟩
    exact splitTree_of_tokenTree htree rest

theorem interior_group (opener closer : Token) (inner : List Token) :
    interior (opener :: inner ++ [closer]) = inner := by
  simp [interior]

/-- Where the first token opens a delimiter, the tree is a group. -/
theorem splitTree_opens_iff (ho : opener.role = .opens d) :
    splitTree (opener :: ts) = .ok (tree, rest) ↔ ∃ inner closer, closer.role = .closes d ∧
      Balanced inner ∧ tree = opener :: inner ++ [closer] ∧ ts = inner ++ closer :: rest := by
  rw [splitTree_eq_ok_iff]
  constructor
  · rintro ⟨htree, happend⟩
    cases htree with
    | leaf hplain =>
      cases happend
      rw [ho] at hplain
      cases hplain
    | group ho' hc hinner =>
      simp only [List.append_assoc, List.cons_append, List.nil_append, List.cons.injEq] at happend
      obtain ⟨rfl, rfl⟩ := happend
      rw [ho] at ho'
      cases ho'
      exact ⟨_, _, hc, hinner, rfl, rfl⟩
  · rintro ⟨inner, closer, hc, hinner, rfl, rfl⟩
    exact ⟨.group ho hc hinner, by simp⟩

/-- In a balanced stream a tree starts at every opener. -/
theorem Balanced.exists_splitTree {before : List Token} (h : Balanced (before ++ opener :: ts))
    (ho : opener.role = .opens d) : ∃ tree rest, splitTree (opener :: ts) = .ok (tree, rest) := by
  rw [balanced_iff_openAfter, openAfter_append] at h
  obtain ⟨stack, -, h⟩ := Option.bind_eq_some_iff.1 h
  rw [openAfter, nest_of_opens ho, Option.bind_some] at h
  obtain ⟨inner, closer, rest, rfl, hinner, hc, -⟩ := closes_of_openAfter h
  exact ⟨_, rest, (splitTree_opens_iff ho).2 ⟨inner, closer, hc, hinner, rfl, rfl⟩⟩

/-! ## Rows of trees -/

theorem TokenTree.balanced (h : TokenTree tree) : Balanced tree := by
  cases h with
  | leaf ht => exact .plain ht .nil
  | group ho hc hinner => exact .tree ho hc hinner .nil

theorem TokenTree.ne_nil (h : TokenTree tree) : tree ≠ [] := by
  cases h <;> simp

theorem balanced_flatten {trees : List (List Token)} (h : ∀ tree ∈ trees, TokenTree tree) :
    Balanced trees.flatten := by
  induction trees with
  | nil => exact .nil
  | cons tree trees ih =>
    rw [List.forall_mem_cons] at h
    exact h.1.balanced.append (ih h.2)

/-- A stream is balanced exactly if it is a row of trees. -/
theorem balanced_iff_flatten :
    Balanced ts ↔ ∃ trees : List (List Token), (∀ tree ∈ trees, TokenTree tree) ∧
      trees.flatten = ts := by
  constructor
  · intro h
    induction h with
    | nil => exact ⟨[], by simp, rfl⟩
    | @plain t ts ht _ ih =>
      obtain ⟨trees, htrees, rfl⟩ := ih
      exact ⟨[t] :: trees, List.forall_mem_cons.2 ⟨.leaf ht, htrees⟩, rfl⟩
    | @tree opener closer d inner ts ho hc hinner _ _ ih =>
      obtain ⟨trees, htrees, rfl⟩ := ih
      exact ⟨(opener :: inner ++ [closer]) :: trees,
        List.forall_mem_cons.2 ⟨.group ho hc hinner, htrees⟩, by simp⟩
  · rintro ⟨trees, htrees, rfl⟩
    exact balanced_flatten htrees

/-- A stream is a row of trees in one way only. -/
theorem eq_of_flatten_eq {trees trees' : List (List Token)} (h : ∀ tree ∈ trees, TokenTree tree)
    (h' : ∀ tree ∈ trees', TokenTree tree) (heq : trees.flatten = trees'.flatten) :
    trees = trees' := by
  induction trees generalizing trees' with
  | nil =>
    cases trees' with
    | nil => rfl
    | cons tree' trees' =>
      rw [List.flatten_nil, List.flatten_cons] at heq
      exact absurd (List.append_eq_nil_iff.1 heq.symm).1 (h' tree' List.mem_cons_self).ne_nil
  | cons tree trees ih =>
    rw [List.forall_mem_cons] at h
    cases trees' with
    | nil =>
      rw [List.flatten_nil, List.flatten_cons] at heq
      exact absurd (List.append_eq_nil_iff.1 heq).1 h.1.ne_nil
    | cons tree' trees' =>
      rw [List.forall_mem_cons] at h'
      -- both first trees are what is cut off the stream
      have hsplit := splitTree_of_tokenTree h.1 trees.flatten
      have hsplit' := splitTree_of_tokenTree h'.1 trees'.flatten
      rw [← List.flatten_cons] at hsplit hsplit'
      rw [heq, hsplit'] at hsplit
      obtain ⟨rfl, hrest⟩ := Prod.mk.inj (Except.ok.inj hsplit)
      rw [ih h.2 h'.2 hrest.symm]

/-- The stream is a row of `n` trees. -/
def Row (n : Nat) (ts : List Token) : Prop :=
  ∃ trees : List (List Token), (∀ tree ∈ trees, TokenTree tree) ∧ trees.length = n ∧
    trees.flatten = ts

theorem Row.balanced {n : Nat} (h : Row n ts) : Balanced ts := by
  obtain ⟨trees, htrees, -, rfl⟩ := h
  exact balanced_flatten htrees

theorem balanced_iff_row : Balanced ts ↔ ∃ n, Row n ts := by
  constructor
  · intro h
    obtain ⟨trees, htrees, hflatten⟩ := balanced_iff_flatten.1 h
    exact ⟨trees.length, trees, htrees, rfl, hflatten⟩
  · rintro ⟨n, hrow⟩
    exact hrow.balanced

theorem row_zero_iff : Row 0 ts ↔ ts = [] := by
  constructor
  · rintro ⟨trees, -, hlen, rfl⟩
    rw [List.length_eq_zero_iff.1 hlen, List.flatten_nil]
  · rintro rfl
    exact ⟨[], by simp, rfl, rfl⟩

theorem row_succ_iff {n : Nat} :
    Row (n + 1) ts ↔ ∃ tree rest, TokenTree tree ∧ Row n rest ∧ ts = tree ++ rest := by
  constructor
  · rintro ⟨trees, htrees, hlen, rfl⟩
    obtain ⟨tree, trees, rfl⟩ := List.exists_cons_of_length_eq_add_one hlen
    rw [List.forall_mem_cons] at htrees
    exact ⟨tree, trees.flatten, htrees.1, ⟨trees, htrees.2, Nat.succ.inj hlen, rfl⟩, rfl⟩
  · rintro ⟨tree, rest, htree, ⟨trees, htrees, rfl, rfl⟩, rfl⟩
    exact ⟨tree :: trees, List.forall_mem_cons.2 ⟨htree, htrees⟩, rfl, rfl⟩

/-- A row of trees is cut off whole where each of them may be taken and the tokens behind them
stop the reader. -/
theorem splitTreesFrom_flatten {p : Token → Bool} {trees : List (List Token)}
    (htrees : ∀ tree ∈ trees, TokenTree tree) (hp : ∀ tree ∈ trees, tree.head?.all p = true)
    (hstop : rest.head?.all p = false ∨ ∃ e, splitTree rest = .error e) {fuel : Nat}
    (hfuel : trees.length ≤ fuel) :
    splitTreesFrom p fuel (trees.flatten ++ rest) = (trees, rest) := by
  induction trees generalizing fuel with
  | nil =>
    rw [List.flatten_nil, List.nil_append]
    cases fuel with
    | zero => rfl
    | succ fuel =>
      rw [splitTreesFrom]
      rcases hstop with hstop | ⟨e, he⟩
      · simp [hstop]
      · simp [he]
  | cons tree trees ih =>
    rw [List.forall_mem_cons] at htrees hp
    obtain ⟨fuel, rfl⟩ : ∃ n, fuel = n + 1 := ⟨fuel - 1, by rw [List.length_cons] at hfuel; omega⟩
    have hhead : ((tree ++ (trees.flatten ++ rest)).head?.all p) = true := by
      obtain ⟨t, tail, rfl⟩ := List.exists_cons_of_ne_nil htrees.1.ne_nil
      exact hp.1
    rw [List.flatten_cons, List.append_assoc, splitTreesFrom, if_pos hhead,
      splitTree_of_tokenTree htrees.1]
    simp only [ih htrees.2 hp.2 (Nat.le_of_succ_le_succ hfuel)]

/-- There are no more trees than tokens. -/
theorem length_le_length_flatten {trees : List (List Token)}
    (h : ∀ tree ∈ trees, TokenTree tree) : trees.length ≤ trees.flatten.length := by
  induction trees with
  | nil => exact Nat.le_refl 0
  | cons tree trees ih =>
    rw [List.forall_mem_cons] at h
    have hpos := List.length_pos_iff.2 h.1.ne_nil
    have hle := ih h.2
    rw [List.flatten_cons, List.length_append, List.length_cons]
    omega

/-! ## Groups -/

section roles

variable {t : Token} {text : String}

theorem role_of_isOperator (h : t.isOperator text = true) : t.role = .plain :=
  Token.role_of_operator (Token.isOperator_iff.1 h).1

theorem role_of_isWord (h : t.isWord text = true) : t.role = .plain :=
  Token.role_of_name (Token.isWord_iff.1 h).1

theorem role_of_isOpener_paren (h : t.isOpener "(" = true) : t.role = .opens .paren := by
  obtain ⟨hkind, htext⟩ := Token.isOpener_iff.1 h
  simp [Token.role, hkind, htext]

theorem role_of_isOpener_bracket (h : t.isOpener "[" = true) : t.role = .opens .bracket := by
  obtain ⟨hkind, htext⟩ := Token.isOpener_iff.1 h
  simp [Token.role, hkind, htext]

theorem role_eq_closes_iff : t.role = .closes d ↔ (t.kind = .dedent ∧ d = .indent) ∨
    (t.kind = .closer ∧ d = if t.text = ")" then .paren else if t.text = "]" then .bracket
      else if t.text = "\x7d" then .brace else .fstring) := by
  unfold Token.role
  cases t.kind <;> simp [eq_comm]

theorem closes_paren_iff : t.role = .closes .paren ↔ t.isCloser ")" = true := by
  rw [role_eq_closes_iff, Token.isCloser_iff]
  split_ifs <;> simp_all

theorem closes_bracket_iff : t.role = .closes .bracket ↔ t.isCloser "]" = true := by
  rw [role_eq_closes_iff, Token.isCloser_iff]
  split_ifs <;> simp_all

theorem closes_indent_iff : t.role = .closes .indent ↔ t.kind = .dedent := by
  rw [role_eq_closes_iff]
  split_ifs <;> simp

end roles

/-- A group is an opener of that text, a balanced body and the closer that belongs to it. -/
theorem splitGroup_eq_some_iff {opening closing : String}
    (ho : ∀ {t : Token}, t.isOpener opening = true → t.role = .opens d)
    (hc : ∀ {t : Token}, t.role = .closes d ↔ t.isCloser closing = true) :
    splitGroup opening ts = some (body, rest) ↔ ∃ opener closer,
      opener.isOpener opening = true ∧ closer.isCloser closing = true ∧ Balanced body ∧
        ts = opener :: body ++ closer :: rest := by
  cases ts with
  | nil => simp [splitGroup]
  | cons t ts =>
    rw [splitGroup]
    constructor
    · intro h
      split at h
      · next hopener =>
        split at h
        · next tree behind hsplit =>
          cases h
          obtain ⟨inner, closer, hcloser, hinner, rfl, rfl⟩ :=
            (splitTree_opens_iff (ho hopener)).1 hsplit
          rw [interior_group]
          exact ⟨t, closer, hopener, hc.1 hcloser, hinner, rfl⟩
        · cases h
      · cases h
    · rintro ⟨opener, closer, hopener, hcloser, hbody, heq⟩
      rw [List.cons_append, List.cons.injEq] at heq
      obtain ⟨rfl, rfl⟩ := heq
      rw [if_pos hopener,
        (splitTree_opens_iff (ho hopener)).2 ⟨body, closer, hc.2 hcloser, hbody, rfl, rfl⟩]
      simp only [interior_group]

end TokenMacros
