import TokenMacros.Proofs.Rule.Rows
import TokenMacros.Rule.Spelling

/-!
# Capturing the trees of a stream

The pattern `$($x:tt)*` takes trees off a stream one by one, and stops where none starts.
The stack of `Pairing.ofTokens` runs through the stream as a whole. The two accept the
same streams: the pattern matches a stream exactly if the stream can be paired off, and
what it captures is the row of trees that the stream is (`readWhole_treesPattern`).
-/

namespace TokenMacros

/-! ## The tokens of a captured value -/

mutual

/-- The tokens of each capture in a value, in the order of the rounds. -/
def Captured.leaves : Captured → List (List Token)
  | .once tokens => [tokens]
  | .each rounds => Captured.leavesOfEach rounds

/-- The tokens of each capture in rounds, one round after the other. -/
def Captured.leavesOfEach : List Captured → List (List Token)
  | [] => []
  | c :: rounds => c.leaves ++ Captured.leavesOfEach rounds

end

/-- All tokens of a value, in the order of the rounds. -/
def Captured.flatten (c : Captured) : List Token := c.leaves.flatten

theorem Captured.leavesOfEach_map_once (pieces : List (List Token)) :
    leavesOfEach (pieces.map .once) = pieces := by
  induction pieces with
  | nil => rfl
  | cons piece pieces ih => rw [List.map_cons, leavesOfEach, ih, leaves, List.singleton_append]

theorem Captured.flatten_each_once (pieces : List (List Token)) :
    (each (pieces.map .once)).flatten = pieces.flatten := by
  rw [flatten, leaves, leavesOfEach_map_once]

/-! ## The pattern -/

/-- `$($name:tt)*` -/
def treesPattern (name : String) (position : Position) : Pattern :=
  [.repetition [.capture name .tree position] none .any]

variable {name : String} {position : Position} {ts rest : List Token}
  {trees : List (List Token)} {captures : Captures}

/-- What a repetition of tree captures binds when it has read a row of trees. -/
theorem gather_once (name : String) (trees : List (List Token)) :
    gather [⟨name, 0⟩] (trees.map fun tree => Table.insert ∅ name (.once tree)) ∅ =
      Table.insert ∅ name (.each (trees.map .once)) := by
  rw [gather, gather, List.map_map]
  congr 2
  refine List.map_congr_left fun tree _ => ?_
  simp only [Function.comp_apply, Table.find?_insert_self, Option.getD_some]

/-- The pattern reads the trees that a stream starts with. -/
theorem read_treesPattern (htrees : ∀ tree ∈ trees, TokenTree tree) {e : Fault}
    (hstop : splitTree rest = .error e) :
    (treesPattern name position).read (trees.flatten ++ rest) =
      some ⟨Table.insert ∅ name (.each (trees.map .once)), trees.flatten, rest⟩ := by
  have hread := read_repetition_flatten
    (fun tree behind (htree : TokenTree tree) => (Pattern.read_singleton _ _).trans
      (read_tree_of_tokenTree htree name position behind))
    htrees ((Pattern.read_singleton _ _).trans (read_tree_of_error hstop name position))
  rw [treesPattern, Pattern.read_singleton, hread]
  exact congrArg (fun c => some (Reading.mk c trees.flatten rest)) (gather_once name trees)

/-- The pattern matches a stream that is a row of trees, and captures the trees. -/
theorem readWhole_treesPattern_iff :
    (treesPattern name position).readWhole ts = some captures ↔
      ∃ trees : List (List Token), (∀ tree ∈ trees, TokenTree tree) ∧ trees.flatten = ts ∧
        captures = Table.insert ∅ name (.each (trees.map .once)) := by
  constructor
  · intro h
    obtain ⟨trees, rest, htrees, ⟨e, hstop⟩, rfl⟩ := exists_flatten_append ts
    rw [Pattern.readWhole, read_treesPattern htrees hstop] at h
    cases rest with
    | nil =>
      cases h
      exact ⟨trees, htrees, (List.append_nil _).symm, rfl⟩
    | cons t rest => cases h
  · rintro ⟨trees, htrees, rfl, rfl⟩
    have hread : (treesPattern name position).read (trees.flatten ++ []) = some ⟨_, _, []⟩ :=
      read_treesPattern htrees splitTree_nil
    rw [List.append_nil] at hread
    rw [Pattern.readWhole, hread]

/-- The pattern matches a stream exactly if the stream can be paired off, and then it captures the
one row of trees that the stream is. -/
theorem readWhole_treesPattern (name : String) (position : Position) (ts : List Token) :
    ((∃ captures, (treesPattern name position).readWhole ts = some captures) ↔
      ∃ p, Pairing.ofTokens ts = .ok p) ∧
    ∀ captures, (treesPattern name position).readWhole ts = some captures →
      ∃ trees : List (List Token),
        captures = Table.insert ∅ name (.each (trees.map .once)) ∧
        (Captured.each (trees.map .once)).flatten = ts ∧ (∀ tree ∈ trees, TokenTree tree) ∧
        ∀ others : List (List Token), (∀ tree ∈ others, TokenTree tree) → others.flatten = ts →
          others = trees := by
  constructor
  · rw [ofTokens_ok_iff, balanced_iff_flatten]
    simp only [readWhole_treesPattern_iff]
    constructor
    · rintro ⟨captures, trees, htrees, hflatten, -⟩
      exact ⟨trees, htrees, hflatten⟩
    · rintro ⟨trees, htrees, hflatten⟩
      exact ⟨_, trees, htrees, hflatten, rfl⟩
  · intro captures h
    obtain ⟨trees, htrees, rfl, rfl⟩ := readWhole_treesPattern_iff.1 h
    exact ⟨trees, rfl, Captured.flatten_each_once trees, htrees,
      fun others hothers heq => eq_of_flatten_eq hothers htrees heq⟩

/-- `f ([])`, two trees -/
def nestedCall : List Token :=
  [⟨.name, "f", ⟨1, 1⟩⟩, ⟨.opener, "(", ⟨1, 3⟩⟩, ⟨.opener, "[", ⟨1, 4⟩⟩, ⟨.closer, "]", ⟨1, 5⟩⟩,
    ⟨.closer, ")", ⟨1, 6⟩⟩]

theorem readWhole_treesPattern_nestedCall : (treesPattern "x" {}).readWhole nestedCall =
    some (Table.insert ∅ "x"
      (.each [.once (nestedCall.take 1), .once (nestedCall.drop 1)])) := by
  obtain ⟨hiff, hall⟩ := readWhole_treesPattern "x" {} nestedCall
  obtain ⟨captures, hread⟩ := hiff.2 ⟨⟨[(2, 3), (1, 4)]⟩, rfl⟩
  obtain ⟨trees, rfl, -, -, hunique⟩ := hall captures hread
  have hgroup : TokenTree (nestedCall.drop 1) :=
    .group (d := .paren) rfl rfl (.tree (d := .bracket) rfl rfl .nil .nil)
  have htrees : [nestedCall.take 1, nestedCall.drop 1] = trees :=
    hunique _ (by simpa using ⟨.leaf rfl, hgroup⟩) rfl
  rw [hread, ← htrees]
  rfl

end TokenMacros
