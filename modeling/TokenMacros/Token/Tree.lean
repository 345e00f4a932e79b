import TokenMacros.Token.Pairing

/-!
# Token trees

A token tree is one plain token, or an opener, balanced tokens and the closer of
the same category. The readers here cut trees off the head of a stream.

    splitTree ts = .ok (tree, rest) → tree ++ rest = ts    (splitTree_append)
-/

namespace TokenMacros

/-! ## Algorithm -/

/-- Puts a token in front of the part that was cut off. -/
def consFirst (t : Token) (p : List Token × List Token) : List Token × List Token :=
  (t :: p.1, p.2)

/-- Cuts off the tokens up to the one that closes `opener`. The innermost open delimiter is `top`,
those around it are `below`. -/
def splitClosing (opener : Token) (top : Delimiter) (below : List Delimiter) :
    List Token → Except Fault (List Token × List Token)
  | [] => .error (.unclosed opener)
  | t :: ts =>
    match t.role with
    | .plain => (splitClosing opener top below ts).map (consFirst t)
    | .opens d => (splitClosing opener d (top :: below) ts).map (consFirst t)
    | .closes d =>
      if top = d then
        match below with
        | [] => .ok ([t], ts)
        | next :: rest => (splitClosing opener next rest ts).map (consFirst t)
      else .error (.stray t)

/-- Cuts the first token tree off a stream. -/
def splitTree : List Token → Except Fault (List Token × List Token)
  | [] => .error ⟨.imbalanced .noTree, {}⟩
  | t :: ts =>
    match t.role with
    | .plain => .ok ([t], ts)
    | .closes _ => .error (.stray t)
    | .opens d => (splitClosing t d [] ts).map (consFirst t)

/-- Cuts off as many token trees as `fuel` allows, as long as the next token satisfies `p`. -/
def splitTreesFrom (p : Token → Bool) : Nat → List Token → List (List Token) × List Token
  | 0, ts => ([], ts)
  | fuel + 1, ts =>
    if ts.head?.all p then
      match splitTree ts with
      | .ok (tree, rest) =>
        let (trees, last) := splitTreesFrom p fuel rest
        (tree :: trees, last)
      | .error _ => ([], ts)
    else ([], ts)

/-- Cuts off all token trees up to the first token that does not satisfy `p` or starts no tree. -/
def splitTreesWhile (p : Token → Bool) (ts : List Token) : List Token × List Token :=
  let (trees, rest) := splitTreesFrom p ts.length ts
  (trees.flatten, rest)

/-- What stands between the delimiters of a tree. -/
def interior (tree : List Token) : List Token := tree.tail.dropLast

/-- The interior of the tree that opens with the given text, and the tokens after the tree. -/
def splitGroup (text : String) : List Token → Option (List Token × List Token)
  | [] => none
  | t :: ts =>
    if t.isOpener text then
      match splitTree (t :: ts) with
      | .ok (tree, rest) => some (interior tree, rest)
      | .error _ => none
    else none

/-- The bounds of the tree that starts at an index. -/
def treeSpan (ts : List Token) (start : Nat) : Except Fault (Nat × Nat) :=
  match ts.drop start with
  | [] => .error ⟨.imbalanced .noTree, (ts.getLast?.map Token.position).getD {}⟩
  | t :: rest => (splitTree (t :: rest)).map fun p => (start, start + p.1.length)

/-! ## Lemmas -/

theorem map_consFirst_eq_ok {t : Token} {x : Except Fault (List Token × List Token)}
    {tree rest : List Token} :
    x.map (consFirst t) = .ok (tree, rest) ↔ ∃ tail, x = .ok (tail, rest) ∧ tree = t :: tail := by
  cases x with
  | error e => simp [Except.map]
  | ok p =>
    obtain ⟨tail, rest'⟩ := p
    simp only [Except.map, consFirst, Except.ok.injEq, Prod.mk.injEq]
    constructor
    · rintro ⟨rfl, rfl⟩
      exact ⟨tail, ⟨rfl, rfl⟩, rfl⟩
    · rintro ⟨_, ⟨rfl, rfl⟩, rfl⟩
      exact ⟨rfl, rfl⟩

theorem splitClosing_append {opener : Token} {ts tree rest : List Token} {top : Delimiter}
    {below : List Delimiter} (h : splitClosing opener top below ts = .ok (tree, rest)) :
    tree ++ rest = ts := by
  induction ts generalizing top below tree rest with
  | nil => simp [splitClosing] at h
  | cons t ts ih =>
    have key : ∀ {top below}, (splitClosing opener top below ts).map (consFirst t)
        = .ok (tree, rest) → tree ++ rest = t :: ts := by
      intro top below h
      obtain ⟨tail, hs, rfl⟩ := map_consFirst_eq_ok.1 h
      simp [ih hs]
    unfold splitClosing at h
    split at h
    · exact key h
    · exact key h
    · split at h
      · split at h
        · simp only [Except.ok.injEq, Prod.mk.injEq] at h
          obtain ⟨rfl, rfl⟩ := h
          rfl
        · exact key h
      · simp at h

theorem splitTree_append {ts tree rest : List Token} (h : splitTree ts = .ok (tree, rest)) :
    tree ++ rest = ts := by
  unfold splitTree at h
  split at h
  · simp at h
  · split at h
    · simp only [Except.ok.injEq, Prod.mk.injEq] at h
      obtain ⟨rfl, rfl⟩ := h
      rfl
    · simp at h
    · obtain ⟨tail, hs, rfl⟩ := map_consFirst_eq_ok.1 h
      simp [splitClosing_append hs]

theorem splitTree_ne_nil {ts tree rest : List Token} (h : splitTree ts = .ok (tree, rest)) :
    tree ≠ [] := by
  unfold splitTree at h
  split at h
  · simp at h
  · split at h
    · simp only [Except.ok.injEq, Prod.mk.injEq] at h
      simp [← h.1]
    · simp at h
    · obtain ⟨tail, -, rfl⟩ := map_consFirst_eq_ok.1 h
      simp

theorem splitTree_length_lt {ts tree rest : List Token} (h : splitTree ts = .ok (tree, rest)) :
    rest.length < ts.length := by
  have hpos := List.length_pos_iff.2 (splitTree_ne_nil h)
  rw [← splitTree_append h, List.length_append]
  omega

end TokenMacros
