import TokenMacros.Proofs.Token.Tree

/-!
# Cursors

The readers of the library cut what they read off the head of a stream. A stream can also
be kept whole, with an index that moves through it, its cursor, and slices that are cut out
between two cursors. Such a walk has one more way to go wrong: to ask for a token or a
slice that lies outside of the stream. Here that is an end of its own, `Stop.outside`, so
that a walk which gives what a reader gives has not gone there.

    taken ++ rest = ts.drop i → i ≤ ts.length →
      slice ts i (i + taken.length) = .ok taken            (slice_of_append)
    treeSpanAt ts start = treeSpan ts start                (treeSpanAt_eq)
-/

namespace TokenMacros

/-! ## Walks -/

/-- How a walk ends early. -/
inductive Stop
  /-- What is read is at fault. -/
  | fault (fault : Fault)
  /-- A token or a slice is asked for that lies outside of the stream. -/
  | outside
  /-- A loop goes round more often than its bound allows. -/
  | endless

/-- The outcome of a walk through a stream. -/
abbrev Walk := Except Stop

/-- The outcome of a reader, as that of a walk that stays within the stream. -/
def Walk.within {α : Type} (x : Except Fault α) : Walk α := x.mapError .fault

/-- The token at an index. -/
def tokenAt (ts : List Token) (i : Nat) : Walk Token :=
  match ts[i]? with
  | some t => .ok t
  | none => .error .outside

/-- The tokens from one index to the one before another. -/
def slice (ts : List Token) (first stop : Nat) : Walk (List Token) :=
  if first ≤ stop ∧ stop ≤ ts.length then .ok ((ts.drop first).take (stop - first))
  else .error .outside

/-- The index before another; there is none before the first. -/
def indexBefore : Nat → Walk Nat
  | 0 => .error .outside
  | i + 1 => .ok i

/-! ## Trees -/

/-- The index behind the tree that starts with `opener`; `index` is that of the first token here,
and `stack` holds the delimiters that are open before it, the innermost first. -/
def treeStop (opener : Token) (index : Nat) (stack : List Delimiter) :
    List Token → Except Fault Nat
  | [] => .error (.unclosed opener)
  | t :: ts =>
    match t.role with
    | .plain => treeStop opener (index + 1) stack ts
    | .opens d => treeStop opener (index + 1) (d :: stack) ts
    | .closes d =>
      match stack with
      | [] => .error (.stray t)
      | top :: below =>
        if top = d then
          match below with
          | [] => .ok (index + 1)
          | next :: rest => treeStop opener (index + 1) (next :: rest) ts
        else .error (.stray t)

/-- The bounds of the tree that starts at an index, found by walking on from there. -/
def treeSpanAt (ts : List Token) (start : Nat) : Except Fault (Nat × Nat) :=
  match ts[start]? with
  | none => .error ⟨.imbalanced .noTree, (ts.getLast?.map Token.position).getD {}⟩
  | some first =>
    match first.role with
    | .plain => .ok (start, start + 1)
    | .closes _ => .error (.stray first)
    | .opens _ => (treeStop first start [] (ts.drop start)).map fun stop => (start, stop)

/-! ## Lemmas -/

section walks

variable {α β : Type}

@[simp] theorem Walk.ok_bind (a : α) (f : α → Walk β) : ((.ok a : Walk α) >>= f) = f a := rfl

@[simp] theorem Walk.error_bind (stop : Stop) (f : α → Walk β) :
    ((.error stop : Walk α) >>= f) = .error stop := rfl

@[simp] theorem Walk.pure_eq (a : α) : (pure a : Walk α) = .ok a := rfl

@[simp] theorem Walk.within_ok (a : α) : Walk.within (.ok a : Except Fault α) = .ok a := rfl

@[simp] theorem Walk.within_error (e : Fault) :
    Walk.within (.error e : Except Fault α) = .error (.fault e) := rfl

theorem Walk.within_map (f : α → β) (x : Except Fault α) :
    Walk.within (x.map f) = (Walk.within x).map f := by
  cases x <;> rfl

end walks

variable {ts taken rest : List Token} {i start : Nat} {opener t : Token}

theorem tokenAt_of_getElem? (h : ts[i]? = some t) : tokenAt ts i = .ok t := by
  rw [tokenAt, h]

/-- A cursor moves over what is taken off the tokens behind it. -/
theorem drop_of_append (h : taken ++ rest = ts.drop i) : ts.drop (i + taken.length) = rest := by
  rw [← List.drop_drop, ← h, List.drop_left]

theorem le_length_of_append (h : taken ++ rest = ts.drop i) (hi : i ≤ ts.length) :
    i + taken.length ≤ ts.length := by
  have hlen := congrArg List.length h
  rw [List.length_append, List.length_drop] at hlen
  omega

/-- What is taken off the tokens behind a cursor is the slice up to where it moves. -/
theorem slice_of_append (h : taken ++ rest = ts.drop i) (hi : i ≤ ts.length) :
    slice ts i (i + taken.length) = .ok taken := by
  rw [slice, if_pos ⟨Nat.le_add_right _ _, le_length_of_append h hi⟩, Nat.add_sub_cancel_left,
    ← h, List.take_left]

/-- The tokens from a cursor to the end of the stream. -/
theorem slice_to_end (hi : i ≤ ts.length) : slice ts i ts.length = .ok (ts.drop i) := by
  have h := slice_of_append (List.append_nil (ts.drop i)) hi
  rwa [List.length_drop, Nat.add_sub_cancel' hi] at h

theorem getElem?_of_drop (h : ts.drop i = t :: rest) : ts[i]? = some t := by
  rw [← List.head?_drop, h, List.head?_cons]

theorem drop_succ_of_drop (h : ts.drop i = t :: rest) : ts.drop (i + 1) = rest := by
  rw [← List.drop_drop, h, List.drop_one, List.tail_cons]

theorem lt_length_of_drop (h : ts.drop i = t :: rest) : i < ts.length := by
  have hlen := congrArg List.length h
  rw [List.length_drop, List.length_cons] at hlen
  omega

/-- A cursor at the end of the stream has nothing behind it. -/
theorem drop_eq_nil_or_cons (ts : List Token) (i : Nat) :
    (ts[i]? = none ∧ ts.drop i = []) ∨
      ∃ t rest, ts[i]? = some t ∧ ts.drop i = t :: rest ∧ i < ts.length := by
  cases h : ts.drop i with
  | nil => exact .inl ⟨by rw [← List.head?_drop, h, List.head?_nil], rfl⟩
  | cons t rest => exact .inr ⟨t, rest, getElem?_of_drop h, rfl, lt_length_of_drop h⟩

/-- Walking on to the end of a tree is cutting the rest of it off. -/
theorem treeStop_eq (opener : Token) (index : Nat) (top : Delimiter) (below : List Delimiter)
    (ts : List Token) : treeStop opener index (top :: below) ts =
      (splitClosing opener top below ts).map fun p => index + p.1.length := by
  induction ts generalizing index top below with
  | nil => rfl
  | cons t ts ih =>
    have hstep : ∀ top below, treeStop opener (index + 1) (top :: below) ts =
        ((splitClosing opener top below ts).map (consFirst t)).map fun p =>
          index + p.1.length := by
      intro top below
      rw [ih, except_map_map]
      congr 1
      funext p
      rw [consFirst, List.length_cons, Nat.add_assoc, Nat.add_comm 1]
    rw [treeStop]
    cases hrole : t.role with
    | plain =>
      simp only [splitClosing, hrole]
      exact hstep top below
    | opens d =>
      simp only [splitClosing, hrole]
      exact hstep d (top :: below)
    | closes d =>
      simp only [splitClosing, hrole]
      split
      · cases below with
        | nil => rfl
        | cons next rest => exact hstep next rest
      · rfl

/-- The bounds of a tree do not depend on how they are found. -/
theorem treeSpanAt_eq (ts : List Token) (start : Nat) : treeSpanAt ts start = treeSpan ts start := by
  rw [treeSpanAt, treeSpan]
  rcases drop_eq_nil_or_cons ts start with ⟨hget, hdrop⟩ | ⟨t, rest, hget, hdrop, -⟩
  · rw [hget, hdrop]
  · rw [hget, hdrop]
    simp only [splitTree]
    cases hrole : t.role with
    | plain => rfl
    | closes d => rfl
    | opens d =>
      simp only [treeStop, hrole, treeStop_eq, except_map_map]
      congr 1
      funext p
      simp only [consFirst, List.length_cons]
      rw [Nat.add_assoc, Nat.add_comm 1]

end TokenMacros
